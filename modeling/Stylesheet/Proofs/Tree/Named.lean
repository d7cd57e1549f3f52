import Stylesheet.Proofs.Grammar.Progress
import Stylesheet.Proofs.Reading.Agree
import Stylesheet.Proofs.Tree.Covering
import Stylesheet.Proofs.Tree.Kinds

/-!
# The tokens that a tree names

A node without children names the place it was put at; in the trees of most productions there is none
(`Derived.named_eq_leaves`), so such a tree names its own tokens. The others are put where reading
stands, so whatever is read between two places names tokens behind the first (`statement_named`), or
the end of the input if it went that far. So a tree names no token behind the first `eof`
(`parseTokens_named`).
-/

namespace Stylesheet

open Computability Grammar

namespace Grammar

/-- The nodes that have children, and no others below them. -/
def isCompact : NodeKind → Bool
  | .stylesheet | .mediaQueryList | .error | .mediaRule | .rule | .fontFaceRule
  | .declarationBlock => false
  | _ => true

/-- A leaf or a node of compact kind. -/
def Compact (t : Tree) : Prop := ∀ kind, t.kind? = some kind → isCompact kind = true

/-- Rows with something in them. -/
def FilledRows (l : Language Tree) : Prop := [] ∉ l

namespace FilledRows

variable {l m : Language Tree}

theorem add (hl : FilledRows l) (hm : FilledRows m) : FilledRows (l + m) := fun h => h.elim hl hm

theorem mul_left (hl : FilledRows l) : FilledRows (l * m) := by
  intro h
  obtain ⟨a, ha, b, -, e⟩ := Language.mem_mul.1 h
  obtain ⟨rfl, -⟩ := List.append_eq_nil_iff.1 e
  exact hl ha

theorem first {ls : List (Language Tree)} (h : FilledRows l) : FilledRows (l :: ls).prod := by
  rw [List.prod_cons]
  exact h.mul_left

theorem later {ls : List (Language Tree)} (h : FilledRows ls.prod) : FilledRows (l :: ls).prod := by
  rw [List.prod_cons]
  intro hn
  obtain ⟨a, -, b, hb, e⟩ := Language.mem_mul.1 hn
  obtain ⟨-, rfl⟩ := List.append_eq_nil_iff.1 e
  exact h hb

theorem nodeIn (kinds : List NodeKind) : FilledRows (nodeIn kinds) := by
  rintro ⟨kind, -, place, children, e⟩
  contradiction

theorem leafOf (tokens : List Token) (p : TokenKind → Bool) : FilledRows (leafOf tokens p) := by
  rintro ⟨i, t, -, -, -, e⟩
  contradiction

end FilledRows

section

variable {tokens : List Token}

/-- Below a compact node, all nodes are compact. -/
theorem compact_closed (kind : NodeKind) (h : isCompact kind = true) :
    (childKinds kind).all isCompact = true := by
  cases kind <;> first | rfl | contradiction

/-- A compact node has children. -/
theorem filledRows_production {kind : NodeKind} (h : isCompact kind = true) :
    FilledRows (production (leafOf tokens) kind) := by
  have tok (p : TokenKind → Bool) : FilledRows (leafOf tokens p) := .leafOf tokens p
  cases kind with
  | stylesheet | mediaQueryList | error | mediaRule | rule | fontFaceRule
  | declarationBlock => contradiction
  | namespacePrefix => exact (tok _).add (FilledRows.first (tok _)).later
  | mediaQuery => exact (((FilledRows.first (tok _)).add (tok _)).add (.nodeIn _)).first
  | selectorList | selector | value => exact (FilledRows.nodeIn _).mul_left
  | simpleSelector => exact fun hn => hn.2 Language.nil_mem_one
  | elementName | idSelector | term => exact tok _
  | combinator => exact tok fun k => isCombinator k || k == .whitespace
  | _ => exact (tok _).first

/-- The queries of a media rule. -/
theorem compact_mediaQueries :
    KindRows isCompact (production (leafOf tokens) .mediaQueryList) :=
  (KindRows.separated (.nodeIn rfl) (.leafOf _ _)).optional

/-- What stands behind the keyword of a namespace rule. -/
theorem compact_namespaceContent :
    KindRows isCompact [optional (nodeWith .namespacePrefix (leafOf tokens TokenKind.isIdent)),
      leafOf tokens isAddress, optional (leafOf tokens (· == .semicolon))].prod :=
  .cons (KindRows.nodeWith rfl _).optional
    (.cons (.leafOf _ _) (.cons (KindRows.leafOf _ _).optional .nil))

/-- A compact tree names the tokens that it holds. -/
theorem Derived.named_eq_leaves {t : Tree} (h : Derived tokens t) (hc : Compact t) :
    t.named = t.leaves := by
  induction h with
  | leaf index => rfl
  | @node kind place children hrow hs ih =>
    have hk : isCompact kind = true := hc kind rfl
    have hne : children ≠ [] := fun e => filledRows_production hk (e ▸ hrow)
    have hall : Tree.namedAmong children = Tree.leavesAmong children := by
      have hch := kindRows_of_closed compact_closed hk children hrow
      clear hrow hs hne hc
      induction children with
      | nil => rfl
      | cons c children ihc =>
        rw [Tree.namedAmong, Tree.leavesAmong, ih c List.mem_cons_self (hch c List.mem_cons_self),
          ihc (fun u hu => ih u (List.mem_cons_of_mem c hu))
            fun u hu => hch u (List.mem_cons_of_mem c hu)]
    rw [Tree.named, if_neg (by simpa using hne), Tree.leaves, hall]

/-- Compact trees name tokens that they are made of. -/
theorem Reads.named {form : Language Tree} {taken : Tokens} {row : List Tree} {rs : List Recovery}
    (h : Reads tokens form taken row rs) (hc : KindRows isCompact form) :
    Tree.namedAmong row ⊆ taken.map Placed.index := by
  intro i hi
  obtain ⟨t, ht, hi⟩ := Tree.mem_namedAmong.1 hi
  rw [(h.derived t ht).named_eq_leaves (hc row h.shape t ht)] at hi
  exact h.accounts.leaves_sublist.subset (Tree.leaves_subset ht hi)

/-! ## Where reading stands -/

/-- The tokens that may be named by what is read from `s` where `rest` is left: those of `s`, and the
    end of the input if nothing is left. -/
def Nameable (st : Setting) (s rest : Tokens) (i : Nat) : Prop :=
  i ∈ s.map Placed.index ∨ (rest = [] ∧ i = st.stopIndex)

/-- A row of trees that was read from `s` names no other tokens. -/
def Names (st : Setting) (s rest : Tokens) (row : List Tree) : Prop :=
  ∀ i ∈ Tree.namedAmong row, Nameable st s rest i

variable {st : Setting} {s left rest : Tokens}

theorem Names.nil : Names st s rest [] := fun _ h => absurd h List.not_mem_nil

theorem Names.mono {row : List Tree} (h : Names st left rest row) (hs : left <:+ s) :
    Names st s rest row :=
  fun i hi => (h i hi).imp_left fun hm => (hs.map Placed.index).subset hm

theorem Names.leaf {t : Placed} (h : t ∈ s) : Names st s rest [t.leaf] := by
  intro i hi
  rw [List.mem_singleton.1 hi]
  exact Or.inl (List.mem_map_of_mem h)

/-- What was read up to `left`, and what was read from there. -/
theorem Names.append {row more : List Tree} (h : Names st s left row) (hm : Names st left rest more)
    (hl : left <:+ s) (hr : rest <:+ left) : Names st s rest (row ++ more) := by
  intro i hi
  rw [Tree.namedAmong_eq, List.flatMap_append, List.mem_append, ← Tree.namedAmong_eq,
    ← Tree.namedAmong_eq] at hi
  rcases hi with hi | hi
  · refine (h i hi).imp_right fun hi => ⟨?_, hi.2⟩
    have hn := hi.1 ▸ hr
    exact List.suffix_nil.1 hn
  · exact hm.mono hl i hi

theorem Names.cons {t : Tree} {more : List Tree} (h : Names st s left [t])
    (hm : Names st left rest more) (hl : left <:+ s) (hr : rest <:+ left) :
    Names st s rest (t :: more) :=
  h.append hm hl hr

/-- A node with children names what they name. -/
theorem Names.node {t : Tree} {row : List Tree} (h : Names st s rest (t :: row)) (kind : NodeKind)
    (place : Nat) : Names st s rest [.node kind place (t :: row)] := by
  intro i hi
  rw [Tree.namedAmong, Tree.namedAmong, List.append_nil] at hi
  exact h i hi

/-- A compact tree that was accepted. -/
theorem Names.ofReads {form : Language Tree} {taken : Tokens} {row : List Tree}
    {rs : List Recovery} (h : Reads tokens form taken row rs) (hc : KindRows isCompact form)
    (e : s = taken ++ rest) : Names st s rest row := by
  intro i hi
  have hm := h.named hc hi
  rw [e]
  left
  rw [List.map_append]
  exact List.mem_append_left _ hm

/-- Skipped tokens, at a place in front of them or where reading stands. -/
theorem names_broken {k : Skipped} {place : Nat} (hl : left <:+ s) (hk : k.Keeps left)
    (hp : place = st.position left ∨ place ∈ s.map Placed.index) :
    Names st s k.rest [.node .error place k.leaves] := by
  obtain ⟨taken, e, hleaves⟩ := hk
  rw [hleaves]
  cases taken with
  | nil =>
    intro i hi
    rw [show i = place from List.mem_singleton.1 hi]
    rcases hp with rfl | hp
    · cases left with
      | nil => exact Or.inr ⟨e.symm, rfl⟩
      | cons t left => exact Or.inl ((hl.map Placed.index).subset List.mem_cons_self)
    · exact Or.inl hp
  | cons t taken =>
    apply Names.node
    intro i hi
    have hi' : i ∈ Tree.namedAmong ((t :: taken).map Placed.leaf) := hi
    obtain ⟨u, hu, hi⟩ := Tree.mem_namedAmong.1 hi'
    obtain ⟨v, hv, rfl⟩ := List.mem_map.1 hu
    rw [show i = v.index from List.mem_singleton.1 hi]
    have hm : v ∈ left := e ▸ List.mem_append_left _ hv
    exact Or.inl (List.mem_map_of_mem (hl.subset hm))

/-! ## Blocks and statements -/

theorem declarations_names (st : Setting) (s : Tokens) (hs : DrawnFrom tokens s) :
    Names st s (declarations st s).rest (declarations st s).result := by
  have hb := Tokens.skipBlank_suffix s
  have hd : DrawnFrom tokens (Tokens.skipBlank s) := hs.skipBlank
  fun_induction declarations st s with
  | case1 s _ h => exact .nil
  | case2 s _ t rest h _ hk =>
    rw [h] at hb
    exact .leaf (hb.subset List.mem_cons_self)
  | case3 s _ t rest h _ hk hk' ih =>
    rw [h] at hb hd
    have hsemicolon : Names st s rest [t.leaf] := .leaf (hb.subset List.mem_cons_self)
    exact hsemicolon.cons (ih hd.tail (Tokens.skipBlank_suffix _) hd.tail.skipBlank)
      ((List.suffix_cons t rest).trans hb) (declarations_suffix st rest)
  | case4 s _ t rest h _ hk hk' d left hd' _ ih =>
    rw [h] at hb hd
    obtain ⟨taken, e, hreads⟩ := Accepts.declaration _ hd d left hd'
    have hleft : DrawnFrom tokens left := (e ▸ hd).right
    have hl : left <:+ t :: rest := ⟨taken, e.symm⟩
    have hnode : Names st (t :: rest) left [d] := .ofReads hreads (.nodeIn rfl) e
    exact (hnode.mono hb).cons (ih hleft (Tokens.skipBlank_suffix _) hleft.skipBlank)
      (hl.trans hb) (declarations_suffix st left)
  | case5 s _ t rest h _ hk hk' f left hd' _ ih =>
    rw [h] at hb hd
    have hl : left <:+ t :: rest := by
      have ha := declaration_advances (t :: rest)
      rw [hd'] at ha
      exact ha
    have hkeeps := skipDeclaration_keeps left 0
    have hr : (skipDeclaration 0 left).rest <:+ t :: rest :=
      (skipDeclaration_suffix left 0).trans hl
    have hrest : DrawnFrom tokens (skipDeclaration 0 left).rest := hd.of_suffix hr
    exact ((names_broken hl hkeeps (Or.inl rfl)).mono hb).cons
      (ih hrest (Tokens.skipBlank_suffix _) hrest.skipBlank) (hr.trans hb)
      (declarations_suffix st _)

/-- A block behind its brace. -/
theorem declarationBlock_names (st : Setting) {brace : Tree} (hs : DrawnFrom tokens left)
    (hl : left <:+ s) (hbrace : Names st s left [brace]) :
    Names st s (declarationBlock st brace left).rest [(declarationBlock st brace left).result] :=
  (hbrace.cons (declarations_names st left hs) hl (declarations_suffix st left)).node _ _

theorem unknownAtRule_names (keyword : Placed) (rest : Tokens)
    (hs : DrawnFrom tokens (keyword :: rest)) (hk : isAtKeyword keyword.kind = true) :
    Names st (keyword :: rest) (unknownAtRule keyword rest).rest
      [(unknownAtRule keyword rest).result] := by
  obtain ⟨taken, e, hreads⟩ := unknownAtRule_follows hs hk
  exact .ofReads hreads (.nodeIn rfl) e

theorem strayToken_names (st : Setting) (expected : String) (t : Placed) (rest : Tokens) :
    Names st (t :: rest) (strayToken st expected t rest).rest
      [(strayToken st expected t rest).result] :=
  (Names.leaf List.mem_cons_self).node _ _

theorem rule_names (st : Setting) (hs : DrawnFrom tokens s) :
    Names st s (rule st s).rest [(rule st s).result.1] := by
  have hl := rulePrelude_advances s
  rw [rule]
  cases h : rulePrelude s with
  | accepted p left =>
    obtain ⟨taken, e, front, behind, rfl, hselectors, hbrace⟩ := Accepts.rulePrelude s hs p left h
    have hleft : DrawnFrom tokens left := (e ▸ hs).right
    rw [List.append_assoc] at e
    have hf : behind ++ left <:+ s := ⟨front, e.symm⟩
    have hfront : Names st s (behind ++ left) [p.1] := .ofReads hselectors (.nodeIn rfl) e
    have hbehind : Names st (behind ++ left) left [p.2] := .ofReads hbrace (.leafOf _ _) rfl
    have hblock := declarationBlock_names st hleft (List.suffix_append behind left) hbehind
    have hr : (declarationBlock st p.2 left).rest <:+ behind ++ left :=
      (declarations_suffix st left).trans (List.suffix_append behind left)
    exact (hfront.cons hblock hf hr).node _ _
  | rejected f left =>
    rw [h] at hl
    exact names_broken hl (skipRule_keeps left 0) (Or.inl rfl)

theorem mediaBlock_names (st : Setting) (s : Tokens) (hs : DrawnFrom tokens s) :
    Names st s (mediaBlock st s).rest (mediaBlock st s).result := by
  have hb := Tokens.skipBlank_suffix s
  have hd : DrawnFrom tokens (Tokens.skipBlank s) := hs.skipBlank
  fun_induction mediaBlock st s with
  | case1 => exact .nil
  | case2 s _ t rest h _ hk =>
    rw [h] at hb
    exact .leaf (hb.subset List.mem_cons_self)
  | case3 s _ t rest h _ hk hk' p _ ih =>
    rw [h] at hb hd
    have hr : p.rest <:+ t :: rest :=
      (unknownAtRule_suffix t rest).trans (List.suffix_cons t rest)
    have hp : DrawnFrom tokens p.rest := hd.of_suffix hr
    exact ((unknownAtRule_names t rest hd (isAtKeyword_of_isSome hk')).mono hb).cons
      (ih hp (Tokens.skipBlank_suffix _) hp.skipBlank) (hr.trans hb) (mediaBlock_suffix st _)
  | case4 s _ t rest h _ hk hk' hk'' p _ ih =>
    rw [h] at hb hd
    exact ((strayToken_names st "rule" t rest).mono hb).cons
      (ih hd.tail (Tokens.skipBlank_suffix _) hd.tail.skipBlank)
      ((List.suffix_cons t rest).trans hb) (mediaBlock_suffix st _)
  | case5 s _ t rest h _ hk hk' hk'' p _ hc =>
    rw [h] at hb hd
    exact (rule_names st hd).mono hb
  | case6 s _ t rest h _ hk hk' hk'' p _ hc ih =>
    rw [h] at hb hd
    have hr : p.rest <:+ t :: rest := rule_suffix st (t :: rest)
    have hp : DrawnFrom tokens p.rest := hd.of_suffix hr
    exact ((rule_names st hd).mono hb).cons
      (ih hp (Tokens.skipBlank_suffix _) hp.skipBlank) (hr.trans hb) (mediaBlock_suffix st _)

/-- A list of queries is put where it begins, which is not the end, since a brace follows. -/
theorem mediaPrelude_names {queries brace : Tree} (hs : DrawnFrom tokens s)
    (h : mediaPrelude s = .accepted (queries, brace) left) : Names st s left [queries, brace] := by
  simp only [mediaPrelude, Production.bind_apply, Production.ahead_apply] at h
  cases hq : mediaQueries s with
  | rejected f r => rw [hq] at h; contradiction
  | accepted row r =>
    obtain ⟨taken, rfl, hreads⟩ := Accepts.mediaQueries s hs row r hq
    simp only [hq] at h
    cases r with
    | nil => contradiction
    | cons t r =>
      simp only [Production.take_cons] at h
      split at h
      · rename_i heq
        split at heq
        · cases heq
          cases h
          have hbrace : Names st (t :: left) left [t.leaf] := .leaf List.mem_cons_self
          have hl : t :: left <:+ taken ++ t :: left := List.suffix_append taken _
          have hlist : Names st (taken ++ t :: left) (t :: left) [.node .mediaQueryList
              ((taken ++ t :: left).head?.elim 0 (·.index)) row] := by
            cases row with
            | nil =>
              intro i hi
              rw [List.mem_singleton.1 hi]
              left
              cases taken with
              | nil => exact List.mem_cons_self
              | cons u taken => exact List.mem_cons_self
            | cons q row =>
              exact (Names.ofReads hreads compact_mediaQueries rfl).node _ _
          exact hlist.cons hbrace hl (List.suffix_cons t left)
        · contradiction
      · contradiction

theorem brokenAtRule_names (st : Setting) (keyword : Placed) (f : Fault) (hl : left <:+ rest) :
    Names st (keyword :: rest) (brokenAtRule st keyword f left).rest
      [(brokenAtRule st keyword f left).result] :=
  names_broken (hl.trans (List.suffix_cons keyword rest)) (skipStatement_keeps left 0)
    (Or.inr List.mem_cons_self)

theorem atRule_names (st : Setting) {keyword : Placed} {name : String}
    (hs : DrawnFrom tokens (keyword :: rest)) (hk : keyword? keyword.kind = some name) :
    Names st (keyword :: rest) (atRule st keyword name rest).rest
      [(atRule st keyword name rest).result] := by
  have hn := namespaceContent_advances rest
  have hf := fontFaceBrace_advances rest
  have hm := (mediaPrelude_advances (Tokens.skipBlank rest)).trans (Tokens.skipBlank_suffix rest)
  have hkeyword : Names st (keyword :: rest) rest [keyword.leaf] := .leaf List.mem_cons_self
  have hrest : rest <:+ keyword :: rest := List.suffix_cons keyword rest
  unfold atRule
  split
  · split
    · rename_i trees missing left h
      obtain ⟨taken, e, hreads⟩ := Accepts.namespaceContent rest hs.tail _ left h
      have hl : left <:+ rest := ⟨taken, e.symm⟩
      exact (hkeyword.cons (.ofReads hreads compact_namespaceContent e) hrest hl).node _ _
    · rename_i h
      rw [h] at hn
      exact brokenAtRule_names st keyword _ hn
  · split
    · split
      · rename_i brace left h
        obtain ⟨front, e, hbrace⟩ := Accepts.fontFaceBrace rest hs.tail brace left h
        have hleft : DrawnFrom tokens left := (e ▸ hs.tail).right
        have hl : left <:+ rest := ⟨front, e.symm⟩
        have hblock := declarationBlock_names st hleft hl (.ofReads hbrace (.leafOf _ _) e)
        exact (hkeyword.cons hblock hrest ((declarations_suffix st left).trans hl)).node _ _
      · rename_i h
        rw [h] at hf
        exact brokenAtRule_names st keyword _ hf
    · split
      · split
        · rename_i queries brace left h
          rw [h] at hm
          have hleft : DrawnFrom tokens left := hs.tail.of_suffix hm
          have hprelude : Names st rest left [queries, brace] :=
            (mediaPrelude_names hs.tail.skipBlank h).mono (Tokens.skipBlank_suffix rest)
          have hcontent := hprelude.append (mediaBlock_names st left hleft) hm
            (mediaBlock_suffix st left)
          exact (hkeyword.cons hcontent hrest ((mediaBlock_suffix st left).trans hm)).node _ _
        · rename_i h
          rw [h] at hm
          exact brokenAtRule_names st keyword _ hm
      · exact unknownAtRule_names keyword rest hs (isAtKeyword_of_isSome (by rw [hk]; rfl))

/-- A statement names tokens from its own on, or the end if it goes that far. -/
theorem statement_names (st : Setting) {t : Placed} (hs : DrawnFrom tokens (t :: rest)) :
    Names st (t :: rest) (statement st t rest).rest [(statement st t rest).result] := by
  unfold statement
  split
  · rename_i hk
    exact atRule_names st hs hk
  · split
    · exact strayToken_names st _ t rest
    · exact rule_names st hs

theorem statements_names (st : Setting) (s : Tokens) (hs : DrawnFrom tokens s) :
    Names st s (statements st s).rest (statements st s).result := by
  have hb := Tokens.skipBlank_suffix s
  have hd : DrawnFrom tokens (Tokens.skipBlank s) := hs.skipBlank
  fun_induction statements st s with
  | case1 => exact .nil
  | case2 s _ t rest h p hl ih =>
    rw [h] at hb hd
    have hr : p.rest <:+ t :: rest := (statement_suffix st t rest).trans (List.suffix_cons t rest)
    have hp : DrawnFrom tokens p.rest := hd.of_suffix hr
    have hend : (statements st p.rest).rest <:+ p.rest := by
      rw [statements_rest]
      exact List.nil_suffix
    exact ((statement_names st hd).mono hb).cons
      (ih hp (Tokens.skipBlank_suffix _) hp.skipBlank) (hr.trans hb) hend

end

/-- A tree names no token behind the first `eof`. -/
theorem parseTokens_named (source : String) (tokens : List Token) :
    ∀ i ∈ (parseTokens source tokens).tree.named, i ≤ (setting source tokens).stopIndex := by
  intro i hi
  have hnames := statements_names (setting source tokens) (numbered tokens)
    (numbered_drawnFrom tokens)
  have hs : ∀ t ∈ numbered tokens, t.index ≤ (setting source tokens).stopIndex :=
    fun t ht => Nat.le_of_lt (index_lt_of_mem_numbered ht)
  rw [parseTokens, Tree.named] at hi
  split at hi
  · exact Nat.le_of_eq (List.mem_singleton.1 hi)
  · rcases hnames i hi with hm | hm
    · obtain ⟨t, ht, rfl⟩ := List.mem_map.1 hm
      exact hs t ht
    · exact Nat.le_of_eq hm.2

end Grammar

end Stylesheet
