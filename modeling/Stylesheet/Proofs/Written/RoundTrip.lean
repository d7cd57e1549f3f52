import Stylesheet.Parse
import Stylesheet.Proofs.Grammar.Numbered
import Stylesheet.Proofs.Token.Stream
import Stylesheet.Proofs.Written.Term

/-!
# Values survive being written

A value of a shape that a text can say, written as the value of a property, is read back as itself
(`parseText_shapedText`); so is a value in normal form (`parseText_declarationText`). The text of the rule around it is followed through the stages: its
tokens (`lexes_declarationText`), the tree of the rule (`parseTokens_declaration`), and the document.
-/

namespace Stylesheet

open Value

/-- A rule with one declaration of the value. -/
def declarationText (v : Value) : String := "Foo \x7b p: " ++ v.toText ++ "; \x7d"

/-- The tokens in front of the value. -/
def kindsBefore : List TokenKind :=
  [.ident "Foo", .whitespace, .opening .brace, .whitespace, .ident "p", .colon, .whitespace]

/-- The tokens behind the value. -/
def kindsBehind : List TokenKind := [.semicolon, .whitespace, .closing .brace]

/-! ## Tokens -/

/-- What stands between the braces. -/
theorem lexes_declaration {v : Value} (hv : v.IsShaped false) (hc : v.IsClean)
    {c : Char} (hb : isBlank c = false) (rest : List Char) :
    Lexes ([' '] ++ (writeIdent "p".toList ++ ([':'] ++ ([' '] ++ (v.toText.toList ++
        ([';'] ++ [' '])))))) ([.whitespace] ++ ([.ident "p"] ++ ([.colon] ++ ([.whitespace] ++ (v.kinds ++
        ([.semicolon] ++ [.whitespace])))))) (c :: rest) := by
  have hp : IsName "p" := ⟨by decide, by decide⟩
  obtain ⟨d, ds, hd, hblank, -⟩ := startsValue_toText false v hv
  have value : Lexes v.toText.toList v.kinds ([';'] ++ [' '] ++ c :: rest) :=
    lexes_toText false v hv hc (by simp [Delimited, delimiters])
  have semicolon : Lexes [';'] [.semicolon] ([' '] ++ c :: rest) :=
    .of_inert (Lexeme.readAs_mark rfl) rfl
  have behind : Lexes (v.toText.toList ++ ([';'] ++ [' ']))
      (v.kinds ++ ([.semicolon] ++ [.whitespace])) (c :: rest) :=
    value.append (semicolon.append (.blank hb rest))
  -- the blank in front of the value ends where the value begins
  have front : Lexes [' '] [.whitespace] (v.toText.toList ++ ([';'] ++ [' ']) ++ c :: rest) := by
    rw [hd]
    exact .blank hblank _
  apply Lexes.append
  · exact .blank (by decide) _
  · apply Lexes.append
    · exact .ident hp (by simp [Delimited, delimiters])
    · apply Lexes.append
      · exact .of_inert (Lexeme.readAs_mark rfl) rfl
      · exact front.append behind

theorem readAs_openingBrace {rest : List Char} :
    Lexeme.ReadAs ['\x7b'] (.token (.opening .brace)) rest := Lexeme.readAs_mark rfl

theorem lexes_declarationText {v : Value} (hv : v.IsShaped false)
    (hc : v.IsClean) :
    Lexes (declarationText v).toList (kindsBefore ++ (v.kinds ++ kindsBehind)) [] := by
  have hf : IsName "Foo" := ⟨by decide, by decide⟩
  have e : (declarationText v).toList =
      writeIdent "Foo".toList ++ ([' '] ++ (['\x7b'] ++ (([' '] ++ (writeIdent "p".toList ++ ([':'] ++
        ([' '] ++ (v.toText.toList ++ ([';'] ++ [' '])))))) ++ Bracket.brace.closer.toList))) := by
    rw [show writeIdent "Foo".toList = "Foo".toList by decide,
      show writeIdent "p".toList = "p".toList by decide]
    simp [declarationText, Bracket.closer]
  have block := Lexes.block (b := .brace) readAs_openingBrace rfl (fun _ _ hl => Lexes.quotedUrl?_opening hl _)
    (lexes_declaration hv hc (c := '\x7d') rfl [])
  rw [e]
  have ek : kindsBefore ++ (v.kinds ++ kindsBehind) = [.ident "Foo"] ++ ([.whitespace] ++
      (.opening .brace :: ([.whitespace] ++ ([.ident "p"] ++ ([.colon] ++ ([.whitespace] ++ (v.kinds ++
        ([.semicolon] ++ [.whitespace])))))) ++ [.closing .brace])) := by
    simp [kindsBefore, kindsBehind]
  rw [ek]
  apply Lexes.append
  · exact .ident hf (by simp [Delimited, delimiters])
  · exact Lexes.append (.blank rfl _) block

/-- The whole text gives the tokens of the rule, and no problem. -/
theorem tokenize_declarationText {v : Value} (hv : v.IsShaped false)
    (hc : v.IsClean) {source : String} {options : Options}
    (hd : (tokenize source (declarationText v).toList options).tooDeep = none) :
    ∃ ts stop, tokenize source (declarationText v).toList options =
        ⟨ts ++ [TokenStream.eofAt stop], [], none⟩ ∧
      ts.map Token.kind = kindsBefore ++ (v.kinds ++ kindsBehind) ∧ ∀ t ∈ ts, t.kind ≠ .eof := by
  obtain ⟨ts, stop, e, hk, -, hne⟩ := tokenize_of_lexes (lexes_declarationText hv hc) hd
  exact ⟨ts, stop, e, hk, hne⟩

/-! ## The tree -/

namespace Grammar

open Production

/-- The compound of an element name. -/
def elementCompound (a : Placed) : Tree :=
  .node .simpleSelector a.index [.node .elementName a.index [a.leaf]]

/-- The selector of an element name. -/
def elementSelector (a : Placed) : Tree := .node .selector a.index [elementCompound a]

/-- The selectors of a rule for one element. -/
def elementSelectors (a : Placed) : Tree := .node .selectorList a.index [elementSelector a]

/-- An element name, where a blank ends its compound. -/
theorem compound_element {a b : Placed} {name : String} (ha : a.kind = .ident name)
    (hb : b.kind = .whitespace) (rest : Tokens) :
    compound (a :: b :: rest) = .accepted (elementCompound a) (b :: rest) := by
  have hconditions : conditions (b :: rest) = .accepted [] (b :: rest) := by
    rw [conditions]
    simp [Tokens.startsWith, hb, startsCondition]
  have hany : isNameOrAny a.kind = true := by simp [isNameOrAny, ha, TokenKind.isIdent]
  have hspace : namespacePrefix? (a :: b :: rest) = .accepted none (a :: b :: rest) := by
    simp [namespacePrefix?, ha, hb]
  simp only [compound, bind_apply, hspace, Option.isSome_none, elementName?, take?_cons, hany,
    ↓reduceIte, pure_apply, hconditions, Option.toList, List.nil_append, List.append_nil]
  rfl

/-- No further compound stands in front of a block. -/
theorem selectorTail_brace {b c : Placed} (hb : b.kind = .whitespace)
    (hc : c.kind = .opening .brace) (rest : Tokens) :
    selectorTail (b :: c :: rest) = .accepted [] (c :: rest) := by
  have hnone : combinator? (b :: c :: rest) = .accepted none (c :: rest) := by
    rw [combinator?, skipBlank_blank hb, skipBlank_cons (by simp [hc])]
    simp [hc, isCombinator, startsCompound]
  rw [selectorTail]
  split
  · rename_i h
    rw [hnone] at h
    cases h
  · rename_i h
    rw [hnone] at h
    cases h
    rfl
  · rename_i h
    rw [hnone] at h
    cases h

/-- An element name in front of a block. -/
theorem rulePrelude_element {a b c : Placed} {name : String} (ha : a.kind = .ident name)
    (hb : b.kind = .whitespace) (hc : c.kind = .opening .brace) (rest : Tokens) :
    rulePrelude (a :: b :: c :: rest) = .accepted (elementSelectors a, c.leaf) rest := by
  have hlist : selectorListTail (c :: rest) = .accepted [] (c :: rest) := by
    rw [selectorListTail]
    simp [hc]
  simp only [rulePrelude, selectorList, selector, bind_apply, compound_element ha hb,
    selectorTail_brace hb hc, pure_apply, hlist, take_cons, hc, beq_self_eq_true, ↓reduceIte]
  rfl

/-- A declaration of a value that ends with a semicolon. -/
def declarationNode (e f h : Placed) (place : Nat) (trees : List Tree) : Tree :=
  .node .declaration e.index [e.leaf, f.leaf, .node .value place trees, h.leaf]

/-- A property with a value, up to its semicolon. -/
theorem declaration_value {v : Value} (hv : v.IsShaped false) {r : Reading} {e f g h : Placed}
    {vs : Tokens} {name : String} (he : e.kind = .ident name) (hf : f.kind = .colon)
    (hg : g.kind = .whitespace) (hk : vs.map Placed.kind = v.kinds) (hh : r.Holds vs)
    (hs : h.kind = .semicolon) (rest : Tokens) :
    ∃ place trees, declaration (e :: f :: g :: (vs ++ h :: rest)) =
        .accepted (declarationNode e f h place trees) rest ∧
      r.row none trees = pure ((.space, v.row.1) :: v.row.2) := by
  have hend : EndsRow (h :: rest) := .of_cons (Or.inr hs)
  have hlast := skipBlank_cons (t := h) (by simp [hs]) rest
  obtain ⟨place, trees, hvalue, hrow⟩ :=
    value_row (readsTerms v.kinds.length) hv (Nat.le_refl _) hk hh hend
  rw [hlast] at hvalue
  refine ⟨place, trees, ?_, hrow⟩
  obtain ⟨t, vs, rfl, ht⟩ := exists_cons_of_kinds hv hk
  obtain ⟨hw, -, -⟩ := startsTerm_ne ht
  have hcolon := skipBlank_cons (t := f) (by simp [hf]) (g :: (t :: vs ++ h :: rest))
  have hfirst : Tokens.skipBlank (g :: (t :: vs ++ h :: rest)) = t :: vs ++ h :: rest :=
    (skipBlank_blank hg _).trans (skipBlank_cons hw _)
  have hahead (name : Option Placed) :
      valueAhead name (t :: vs ++ h :: rest) = .accepted () (t :: vs ++ h :: rest) := by
    have hne : endsEmpty t.kind = false := by
      cases hk : t.kind <;> rw [hk] at ht <;> first | rfl | contradiction
    simp [valueAhead, Tokens.startsWith, hne]
  simp only [declaration, declarationEnd, bind_apply, ahead_apply, take_cons, he, TokenKind.isIdent,
    ↓reduceIte, blank_apply, hcolon, hf, beq_self_eq_true, hfirst, hahead, hvalue, hlast, take?_cons,
    hs, show (TokenKind.semicolon == TokenKind.important) = false from rfl, Bool.false_eq_true,
    pure_apply, Option.toList, List.nil_append]
  rfl

/-- A block between two braces with one declaration. -/
def blockNode (c j : Placed) (declaration : Tree) : Tree :=
  .node .declarationBlock c.index [c.leaf, declaration, j.leaf]

/-- A rule for one element. -/
def ruleNode (a : Placed) (block : Tree) : Tree := .node .rule a.index [elementSelectors a, block]

/-- A block with one declaration and blanks around it. -/
theorem declarations_single (st : Setting) {d e i j : Placed} {s : Tokens} {tree : Tree}
    {name : String} (hd : d.kind = .whitespace) (he : e.kind = .ident name)
    (hi : i.kind = .whitespace) (hj : j.kind = .closing .brace)
    (h : declaration (e :: s) = .accepted tree [i, j]) :
    declarations st (d :: e :: s) = ⟨[tree, j.leaf], [], []⟩ := by
  have hend : declarations st [i, j] = ⟨[j.leaf], [], []⟩ := by
    rw [declarations_eq, skipBlank_blank hi, skipBlank_cons (by simp [hj])]
    simp [hj]
  rw [declarations_eq, skipBlank_blank hd, skipBlank_cons (by simp [he])]
  simp only [he, reduceCtorEq, ↓reduceIte, h, hend]
  rfl

/-- A rule for one element, with what its block holds, is the only statement of its list. -/
theorem statements_rule (st : Setting) {a b c j : Placed} {s : Tokens} {tree : Tree}
    {name : String} (ha : a.kind = .ident name) (hb : b.kind = .whitespace)
    (hc : c.kind = .opening .brace) (h : declarations st s = ⟨[tree, j.leaf], [], []⟩) :
    statements st (a :: b :: c :: s) = ⟨[ruleNode a (blockNode c j tree)], [], []⟩ := by
  have hrule : rule st (a :: b :: c :: s) =
      ⟨(ruleNode a (blockNode c j tree), false), [], []⟩ := by
    simp only [rule, rulePrelude_element ha hb hc, declarationBlock, h]
    rfl
  have hnil : statements st [] = ⟨[], [], []⟩ := by
    rw [statements_eq]
    rfl
  rw [statements_eq, skipBlank_cons (by simp [ha])]
  simp only [statement, ha, keyword?, reduceCtorEq, or_self, ↓reduceIte, hrule, Parsed.map, hnil]
  rfl

theorem statements_declaration (st : Setting) {v : Value} (hv : v.IsShaped false) {r : Reading}
    {s : Tokens} (hk : s.map Placed.kind = kindsBefore ++ (v.kinds ++ kindsBehind)) (hh : r.Holds s) :
    ∃ a c e f h j place trees,
      statements st s =
        ⟨[ruleNode a (blockNode c j (declarationNode e f h place trees))], [], []⟩ ∧
      r.kind? a.index = some (.ident "Foo") ∧ r.kind? e.index = some (.ident "p") ∧
      r.row none trees = pure ((.space, v.row.1) :: v.row.2) := by
  obtain ⟨s₁, s₂, rfl, h₁, h₂⟩ := List.map_eq_append_iff.1 hk
  obtain ⟨vs, s₃, rfl, hvs, h₃⟩ := List.map_eq_append_iff.1 h₂
  simp only [kindsBefore, kindsBehind, List.map_eq_cons_iff, List.map_eq_nil_iff] at h₁ h₃
  obtain ⟨a, _, rfl, ha, b, _, rfl, hb, c, _, rfl, hc, d, _, rfl, hd, e, _, rfl, he, f, _, rfl, hf,
    g, _, rfl, hg, rfl⟩ := h₁
  obtain ⟨h, _, rfl, hs, i, _, rfl, hi, j, _, rfl, hj, rfl⟩ := h₃
  obtain ⟨hh₁, hh₂⟩ := hh.append
  obtain ⟨place, trees, hdecl, hrow⟩ :=
    declaration_value hv he hf hg hvs hh₂.append.1 hs [i, j]
  have hblock := declarations_single st hd he hi hj hdecl
  refine ⟨a, c, e, f, h, j, place, trees, statements_rule st ha hb hc hblock, ?_, ?_, hrow⟩
  · rw [Reading.kind?_of_holds (hh₁ a (by simp)), ha]
  · rw [Reading.kind?_of_holds (hh₁ e (by simp)), he]

end Grammar

/-! ## The document -/

namespace Reading

variable {r : Reading}

theorem collect?_singleton {α β : Type} (f : α → Noted (Option β)) {a : α} {b : β}
    (h : f a = pure (some b)) : Noted.collect? f [a] = pure [b] := by
  rw [Noted.collect?, Noted.collect, h]
  rfl

/-- The selectors of the rule are read without a problem. -/
theorem selectors_element (options : Options) {a : Placed} {name : String}
    (ha : r.kind? a.index = some (.ident name)) :
    ∃ s, r.selectors options [] (Grammar.elementSelectors a) = pure [s] := by
  have hresolve (hasElement : Bool) (span : Span) :
      ∃ address, r.resolve options [] none hasElement span = pure address := by
    unfold resolve
    dsimp only
    split
    · exact ⟨_, rfl⟩
    · exact ⟨_, rfl⟩
  obtain ⟨address, e⟩ := hresolve true (r.spanOf (Grammar.elementCompound a))
  have hname : r.elementOf? (.node .elementName a.index [a.leaf]) = some (.type name) := by
    simp [elementOf?, Tree.first, Placed.leaf, ha]
  have hcompound : r.compound options [] (Grammar.elementCompound a) =
      pure ⟨none, address, some (.type name), []⟩ := by
    have hchild : (Grammar.elementCompound a).child? .elementName =
        some (.node .elementName a.index [a.leaf]) := rfl
    simp only [compound, hchild, Option.bind_some, hname, Option.isSome_some]
    exact congrArg (· >>= _) e
  have hselector : r.selector options [] (Grammar.elementSelector a) =
      pure (some ⟨[⟨none, address, some (.type name), []⟩], [],
        r.spanOf (Grammar.elementSelector a)⟩) := by
    have hnodes : (Grammar.elementSelector a).nodesOf .simpleSelector =
        [Grammar.elementCompound a] := rfl
    simp only [selector, hnodes, Noted.collect, hcompound, Noted.pure_bind]
    rfl
  exact ⟨_, collect?_singleton (r.selector options []) hselector⟩

/-- The declaration of the rule is read as the value. -/
theorem declaration_row {v : Value} (hv : v.IsShaped false) {e f h : Placed} {name : String}
    {place : Nat} {trees : List Tree} (he : r.kind? e.index = some (.ident name))
    (hrow : r.row none trees = pure ((.space, v.row.1) :: v.row.2)) :
    ∃ d, r.declaration (Grammar.declarationNode e f h place trees) = pure (some d) ∧
      d.name = name ∧ d.value = v := by
  generalize ht : Grammar.declarationNode e f h place trees = t
  refine ⟨⟨name, v, t.tokens.any fun index => r.kind? index == some .important, r.spanOf t⟩, ?_,
    rfl, rfl⟩
  have hname : r.ident? t.first = some name := by
    rw [← ht]
    simp [ident?, Grammar.declarationNode, Tree.first, Placed.leaf, he]
  have hvalue : r.value (.node .value place trees) = pure (some v) := by
    simp only [Reading.value, Tree.children, hrow, Noted.pure_bind, combine_row hv]
  have hchild : t.child? .value = some (.node .value place trees) := by
    rw [← ht]
    rfl
  simp only [declaration, hname, hchild, hvalue, Noted.pure_bind, Option.map_some]

/-- The rule is read with its one declaration. -/
theorem rule_row (options : Options) {v : Value} (hv : v.IsShaped false) {a e : Placed}
    (c f h j : Placed) (place : Nat) {trees : List Tree} (ha : r.kind? a.index = some (.ident "Foo"))
    (he : r.kind? e.index = some (.ident "p"))
    (hrow : r.row none trees = pure ((.space, v.row.1) :: v.row.2)) :
    ∃ rule d, r.rule options [] []
        (Grammar.ruleNode a (Grammar.blockNode c j (Grammar.declarationNode e f h place trees))) =
        pure (some rule) ∧
      rule.declarations = [d] ∧ d.name = "p" ∧ d.value = v := by
  obtain ⟨s, hs⟩ := selectors_element options ha
  obtain ⟨d, hd, hn, hdv⟩ := declaration_row hv he hrow
  generalize hb : Grammar.blockNode c j (Grammar.declarationNode e f h place trees) = block
  refine ⟨⟨[s], [d], [], r.spanOf (Grammar.ruleNode a block)⟩, d, ?_, rfl, hn, hdv⟩
  have hdecls : r.declarations block = pure [d] := by
    rw [← hb]
    exact collect?_singleton r.declaration hd
  have hblock : (Grammar.ruleNode a block).child? .declarationBlock = some block := by
    rw [← hb]
    rfl
  have hlist : (Grammar.ruleNode a block).child? .selectorList =
      some (Grammar.elementSelectors a) := rfl
  simp only [rule, hlist, hblock, hs, hdecls, Noted.pure_bind]
  rfl

end Reading

theorem buildDocument_rule (source : String) (tokens : List Token) (options : Options)
    (place : Nat) {a : Placed} {block : Tree} {rule : Rule}
    (h : (⟨source, tokens⟩ : Reading).rule options [] [] (Grammar.ruleNode a block) = pure (some rule)) :
    (buildDocument source tokens (.node .stylesheet place [Grammar.ruleNode a block])
        options).document.rules = [rule] ∧
      (buildDocument source tokens (.node .stylesheet place [Grammar.ruleNode a block])
        options).problems = [] := by
  have hnodes : (Tree.node .stylesheet place [Grammar.ruleNode a block]).nodes =
      [Grammar.ruleNode a block] := rfl
  have hkind : (Grammar.ruleNode a block).kind? = some .rule := rfl
  have hrules : (⟨source, tokens⟩ : Reading).rules options [] [] [Grammar.ruleNode a block] =
      pure [rule] := by
    simp only [Reading.rules, hkind, h, Noted.pure_bind]
    rfl
  simp only [buildDocument, hnodes, Reading.statements, Reading.statement, hkind, hrules]
  exact ⟨rfl, rfl⟩

/-- A value of a shape that a text can say is read back as itself when it is written as the value of a
    property: there is no problem, and the one rule has the one declaration of the value. -/
theorem parseText_shapedText {v : Value} (hv : v.IsShaped false) (hc : v.IsClean) (source : String)
    (options : Options) (hd : (tokenize source (declarationText v).toList options).tooDeep = none) :
    (parseText source (declarationText v) options).problems = [] ∧
      ∃ document rule d, (parseText source (declarationText v) options).document = some document ∧
        document.rules = [rule] ∧ rule.declarations = [d] ∧ d.name = "p" ∧ d.value = v := by
  obtain ⟨ts, stop, htok, hkinds, heof⟩ := tokenize_declarationText hv hc hd
  -- trees are read against the list of all tokens, with the `eof` at its end
  generalize htokens : ts ++ [TokenStream.eofAt stop] = tokens at htok
  have hholds : (⟨source, tokens⟩ : Reading).Holds (Grammar.numbered tokens) := fun t ht =>
    Grammar.mem_numbered ht
  have hk : (Grammar.numbered tokens).map Placed.kind = kindsBefore ++ (v.kinds ++ kindsBehind) := by
    rw [← hkinds, ← Grammar.numbered_append_eof heof
      (show (TokenStream.eofAt stop).kind = .eof from rfl), htokens, List.map_map]
    rfl
  obtain ⟨a, c, e, f, h, j, place, trees, hstatements, ha, he, hrow⟩ :=
    Grammar.statements_declaration (Grammar.setting source tokens) hv hk hholds
  obtain ⟨rule, d, hrule, hdecls, hname, hvalue⟩ :=
    Reading.rule_row options hv c f h j place ha he hrow
  have hparse : parseTokens source tokens = ⟨.node .stylesheet (Grammar.setting source tokens).stopIndex
      [Grammar.ruleNode a (Grammar.blockNode c j
        (Grammar.declarationNode e f h place trees))], []⟩ := by
    simp only [parseTokens, hstatements]
  obtain ⟨hrules, hproblems⟩ := buildDocument_rule source tokens options
    (Grammar.setting source tokens).stopIndex hrule
  refine ⟨?_, _, rule, d, ?_, hrules, hdecls, hname, hvalue⟩
  · simp only [parseText, htok, parseFrom, Report.behind, hparse, hproblems, List.append_nil]
  · simp only [parseText, htok, parseFrom, Report.behind, hparse]

/-- A value in normal form that is written as the value of a property is read back as itself: there
    is no problem, and the one rule has the one declaration of the value. -/
theorem parseText_declarationText {v : Value} (hv : v.IsNormal false)
    (hb : ∀ x ∈ v.numbers, x.ReadsBack) (source : String) (options : Options)
    (hd : (tokenize source (declarationText v).toList options).tooDeep = none) :
    (parseText source (declarationText v) options).problems = [] ∧
      ∃ document rule d, (parseText source (declarationText v) options).document = some document ∧
        document.rules = [rule] ∧ rule.declarations = [d] ∧ d.name = "p" ∧ d.value = v :=
  parseText_shapedText hv.isShaped (hv.isClean hb) source options hd

/-- A value in which names, units, strings and separators all need their escapes. -/
def mixedValue : Value :=
  .list .comma
    [.list .space
      [.ident "-9\x07 e", .list .slash [.number (.ofDecimal .single true 15 (-1)) (some "e3"),
        .url "a\"b)\n"]],
    .call "f-1"
      [.named "-" (.call "Rgb" [.named "x" (.string "\\\x7f")]), .list .space
        [.number (.ofDecimal .single false 1 (-3)) (some "%"), .color ⟨1, 2, 254, 0⟩]],
    .number (.ofDecimal .single true 0 0) none]

theorem parseText_mixedValue :
    (parseText "mixed.css" (declarationText mixedValue) .strict).problems = [] ∧
      ∃ document rule d,
        (parseText "mixed.css" (declarationText mixedValue) .strict).document = some document ∧
        document.rules = [rule] ∧ rule.declarations = [d] ∧ d.name = "p" ∧ d.value = mixedValue :=
  parseText_declarationText (by decide +kernel) (by decide +kernel) "mixed.css" .strict
    (by decide +kernel)

end Stylesheet
