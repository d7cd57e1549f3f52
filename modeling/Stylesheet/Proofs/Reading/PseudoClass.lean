import Stylesheet.Proofs.Grammar.Numbered
import Stylesheet.Proofs.Grammar.Resumed
import Stylesheet.Proofs.Tree.Order
import Stylesheet.Reading.Selector

/-!
# The argument of a pseudo-class

The argument of a functional pseudo-class goes up to a parenthesis. Every bracket that opens in it is
counted, but only parentheses are counted as closing: behind a balanced row the count is what the braces
and square brackets of the row have left (`pseudoArgument_balanced`). So the argument ends at its own
parenthesis exactly if none of these stands in it (`condition_pseudo_iff`), and otherwise it takes
parentheses that are not its own.
-/

namespace Stylesheet

theorem Outcome.map_map {α β γ : Type} (f : α → β) (g : β → γ) (o : Outcome α) :
    (o.map f).map g = o.map fun a => g (f a) := by
  cases o <;> rfl

namespace Grammar

open Production Tokens

/-! ## The argument -/

/-- A bracket that a parenthesis does not close. -/
def opensOther (t : Placed) : Bool := t.kind == .opening .brace || t.kind == .opening .square

/-- A token that is no bracket. -/
theorem pseudoArgument_token {t : Placed} (ho : t.kind.opens? = none)
    (hc : t.kind.isClosing = false) (depth : Nat) (s : Tokens) :
    pseudoArgument depth (t :: s) = (pseudoArgument depth s).map (t.leaf :: ·) := by
  have hk : t.kind ≠ .closing .paren := by
    intro hk
    rw [hk] at hc
    contradiction
  rw [pseudoArgument, if_neg (by simp [ho]), if_neg hk]

/-- A group of brackets is closed again, or counted on if no parenthesis closes it. -/
theorem pseudoArgument_close {o c : Placed} {b : Bracket} (ho : o.kind.opens? = some b)
    (hc : c.kind = .closing b) (depth : Nat) (s : Tokens) : pseudoArgument (depth + 1) (c :: s) =
      (pseudoArgument (depth + if opensOther o then 1 else 0) s).map (c.leaf :: ·) := by
  rw [pseudoArgument, if_neg (by simp [hc, TokenKind.opens?])]
  cases hk : o.kind <;> rw [hk] at ho <;> cases ho
  case function => simp [opensOther, hk, hc]
  case opening => cases b <;> simp [opensOther, hk, hc]

/-- A balanced row adds to the count what no parenthesis closes in it. -/
theorem pseudoArgument_balanced {divided : Bool} {row : Tokens} (h : Balanced divided row)
    (depth : Nat) (s : Tokens) : pseudoArgument depth (row ++ s) =
      (pseudoArgument (depth + row.countP opensOther) s).map (row.map Placed.leaf ++ ·) := by
  induction h generalizing depth s with
  | nil =>
    rw [List.nil_append, List.countP_nil, Nat.add_zero]
    cases pseudoArgument depth s <;> rfl
  | @token _ t row ho hc _ _ ih =>
    have hother : ¬opensOther t = true := by
      intro h
      rcases Bool.or_eq_true_iff.1 h with h | h <;> rw [eq_of_beq h] at ho <;> contradiction
    rw [List.cons_append, pseudoArgument_token ho hc, ih, List.countP_cons_of_neg hother,
      Outcome.map_map]
    rfl
  | @group _ o c inner row b ho hc _ _ ihi ih =>
    have hclose : ¬opensOther c = true := by simp [opensOther, hc]
    have hcount : depth + (o :: (inner ++ c :: row)).countP opensOther =
        depth + inner.countP opensOther + (if opensOther o then 1 else 0) +
          row.countP opensOther := by
      rw [List.countP_cons, List.countP_append, List.countP_cons_of_neg hclose]
      omega
    rw [group_append, pseudoArgument, if_pos (by rw [ho]; rfl), ihi, Nat.add_right_comm,
      pseudoArgument_close ho hc, ih, hcount, Outcome.map_map, Outcome.map_map, Outcome.map_map]
    simp

/-- An argument takes the parenthesis that ends it. -/
theorem pseudoArgument_length {depth : Nat} {s rest : Tokens} {ts : List Tree}
    (h : pseudoArgument depth s = .accepted ts rest) : rest.length < s.length := by
  induction s generalizing depth ts with
  | nil => contradiction
  | cons t s ih =>
    have step (d : Nat) (h : (pseudoArgument d s).map (t.leaf :: ·) = .accepted ts rest) :
        rest.length < (t :: s).length := by
      cases e : pseudoArgument d s with
      | accepted us left =>
        rw [e] at h
        cases h
        exact Nat.lt_succ_of_lt (ih e)
      | rejected f left =>
        rw [e] at h
        contradiction
    rw [pseudoArgument] at h
    split at h
    · exact step _ h
    · split at h
      · split at h
        · cases h
          exact Nat.lt_succ_self _
        · exact step _ h
      · exact step _ h

section

variable {row : Tokens} (hrow : Balanced true row) {close : Placed}
  (hclose : close.kind = .closing .paren) (behind : Tokens)

include hrow hclose

theorem pseudoArgument_close_eq : pseudoArgument 0 (row ++ close :: behind) =
    if row.countP opensOther = 0 then .accepted ((row ++ [close]).map Placed.leaf) behind
    else (pseudoArgument (row.countP opensOther - 1) behind).map
      ((row ++ [close]).map Placed.leaf ++ ·) := by
  rw [pseudoArgument_balanced hrow, Nat.zero_add, pseudoArgument,
    if_neg (by simp [hclose, TokenKind.opens?]), if_pos hclose]
  split
  · rw [Outcome.map, List.map_append]
    rfl
  · cases pseudoArgument (row.countP opensOther - 1) behind <;> simp [Outcome.map]

/-- Behind a balanced row, the argument ends at the next parenthesis if nothing is left open. -/
theorem pseudoArgument_ends (h : ∀ t ∈ row, opensOther t = false) :
    pseudoArgument 0 (row ++ close :: behind) =
      .accepted ((row ++ [close]).map Placed.leaf) behind := by
  rw [pseudoArgument_close_eq hrow hclose, if_pos (by simpa [List.countP_eq_zero] using h)]

/-- Otherwise it goes on behind it. -/
theorem pseudoArgument_goes_on (h : ∃ t ∈ row, opensOther t = true) (ts : List Tree) :
    pseudoArgument 0 (row ++ close :: behind) ≠ .accepted ts behind := by
  rw [pseudoArgument_close_eq hrow hclose, if_neg (by simpa [List.countP_eq_zero] using h)]
  intro e
  cases hp : pseudoArgument (row.countP opensOther - 1) behind with
  | accepted us left =>
    rw [hp] at e
    cases e
    exact Nat.lt_irrefl _ (pseudoArgument_length hp)
  | rejected f left =>
    rw [hp] at e
    contradiction

end

/-! ## The pseudo-class in a compound -/

/-- What a compound selector has come to: the parts that it has read, and what is left. -/
inductive CompoundReaches (s : Tokens) : List Tree → Tokens → Prop
  | element {p e : Option Tree} {between left : Tokens}
      (hp : namespacePrefix? s = .accepted p between)
      (he : elementName? p.isSome between = .accepted e left) :
      CompoundReaches s (p.toList ++ e.toList) left
  | condition {parts : List Tree} {left rest : Tokens} {c : Tree} (h : CompoundReaches s parts left)
      (hs : left.startsWith startsCondition = true) (hc : condition left = .accepted c rest) :
      CompoundReaches s (parts ++ [c]) rest

/-- A compound selector behind some of its parts. -/
def compoundFrom (parts : List Tree) : Production Tree := do
  let more ← conditions
  match parts ++ more with
  | [] => reject fun s => .selector (.noSelector s.found)
  | part :: parts => return .node .simpleSelector part.first (part :: parts)

theorem CompoundReaches.suffix {s left : Tokens} {parts : List Tree}
    (h : CompoundReaches s parts left) : left <:+ s := by
  induction h with
  | element hp he =>
    exact (suffix_of_accepted (elementName?_advances _) he).trans
      (suffix_of_accepted namespacePrefix?_advances hp)
  | condition _ _ hc ih => exact (suffix_of_accepted condition_advances hc).trans ih

/-- It goes on behind what it has read. -/
theorem CompoundReaches.compound_eq {s left : Tokens} {parts : List Tree}
    (h : CompoundReaches s parts left) : compound s = compoundFrom parts left := by
  induction h with
  | element hp he =>
    rw [compound, bind_apply, hp]
    dsimp only
    rw [bind_apply, he]
    rfl
  | @condition parts left rest c _ hs hc ih =>
    have hstep : conditions left = (conditions rest).map (c :: ·) := by
      rw [conditions_eq, if_pos hs, hc]
    rw [ih, compoundFrom, compoundFrom, bind_apply, bind_apply, hstep]
    cases conditions rest with
    | rejected f left => rfl
    | accepted cs left =>
      dsimp only [Outcome.map]
      rw [List.append_cons]

section

variable {colon function : Placed} {second : Option Placed} {name : String}
  (hcolon : colon.kind = .colon) (hsecond : ∀ t ∈ second, t.kind = .colon)
  (hfunction : function.kind = .function name)

include hcolon hsecond hfunction

/-- A pseudo-class with an argument is read as far as the argument goes. -/
theorem condition_pseudo (s : Tokens) : condition (colon :: (second.toList ++ function :: s)) =
    (pseudoArgument 0 s).map fun ts => .node .pseudoSelector colon.index
      ((colon :: (second.toList ++ [function])).map Placed.leaf ++ ts) := by
  have hname (s : Tokens) : pseudoName (function :: s) =
      (pseudoArgument 0 s).map (function.leaf :: ·) := by
    rw [pseudoName, hfunction]
  have hkind (s : Tokens) : condition (colon :: s) = pseudoSelector (colon :: s) := by
    rw [condition, Tokens.kind?, List.head?_cons, Option.map_some, hcolon]
  rw [hkind, pseudoSelector, bind_apply, take_cons, if_pos (by rw [hcolon]; rfl)]
  dsimp only
  cases second with
  | none =>
    rw [Option.toList_none, List.nil_append, bind_apply, take?_cons,
      if_neg (by rw [hfunction]; simp)]
    dsimp only
    rw [bind_apply, hname]
    cases pseudoArgument 0 s <;> rfl
  | some d =>
    rw [Option.toList_some, List.singleton_append, bind_apply, take?_cons,
      if_pos (by rw [hsecond d rfl]; rfl)]
    dsimp only
    rw [bind_apply, hname]
    cases pseudoArgument 0 s <;> rfl

/-- It ends at the parenthesis behind a balanced row exactly if no other bracket is in the row. -/
theorem condition_pseudo_iff {row : Tokens} (hrow : Balanced true row) {close : Placed}
    (hclose : close.kind = .closing .paren) (behind : Tokens) :
    condition (colon :: (second.toList ++ function :: (row ++ close :: behind))) =
        .accepted (.node .pseudoSelector colon.index
          ((colon :: (second.toList ++ function :: (row ++ [close]))).map Placed.leaf)) behind ↔
      ∀ t ∈ row, opensOther t = false := by
  rw [condition_pseudo hcolon hsecond hfunction]
  constructor
  · intro h
    by_contra hother
    push Not at hother
    obtain ⟨t, ht, ho⟩ := hother
    cases e : pseudoArgument 0 (row ++ close :: behind) with
    | accepted ts left =>
      rw [e] at h
      injection h with _ hleft
      rw [hleft] at e
      exact pseudoArgument_goes_on hrow hclose behind ⟨t, ht, by simpa using ho⟩ ts e
    | rejected f left =>
      rw [e] at h
      contradiction
  · intro h
    rw [pseudoArgument_ends hrow hclose behind h, Outcome.map, ← List.map_append]
    simp

end

end Grammar

namespace Reading

variable {r : Reading}

/-- A pseudo-class with an argument stands for its name and the text between the parentheses. -/
theorem conditionOf?_pseudo {colon function close : Placed} {second : Option Placed} {row : Tokens}
    {name : String} (hsecond : ∀ t ∈ second, t.kind = .colon) (hfunction : function.kind = .function name)
    (hheld : ∀ t ∈ colon :: (second.toList ++ function :: (row ++ [close])),
      r.tokens[t.index]? = some t.token) :
    r.conditionOf? (.node .pseudoSelector colon.index
        ((colon :: (second.toList ++ function :: (row ++ [close]))).map Placed.leaf)) =
      some (.pseudo name
        (some (String.ofList (trimmed (String.join (row.map (·.token.text))).toList)))
        second.isSome) := by
  have hkind (t : Placed) (ht : t ∈ colon :: (second.toList ++ function :: (row ++ [close]))) :
      r.kind? t.index = some t.kind := by
    rw [kind?, hheld t ht]
    rfl
  have htexts : row.map (fun t => r.text t.index) = row.map (·.token.text) := by
    refine List.map_congr_left fun t ht => ?_
    rw [text, hheld t (by simp [ht])]
    rfl
  have hargument : r.pseudoArgument ((row ++ [close]).map Placed.index) =
      String.ofList (trimmed (String.join (row.map (·.token.text))).toList) := by
    rw [pseudoArgument, List.map_append, List.map_singleton, List.dropLast_concat, List.map_map,
      ← htexts]
    rfl
  have hname (element : Bool) : r.pseudoOfName? element
      ((function :: (row ++ [close])).map Placed.index) = some (.pseudo name
        (some (String.ofList (trimmed (String.join (row.map (·.token.text))).toList))) element) := by
    rw [List.map_cons, pseudoOfName?, hkind function (by simp), hfunction, ← hargument]
  have hindices (ts : Tokens) (place : Nat) :
      (Tree.node .pseudoSelector place (ts.map Placed.leaf)).tokens = ts.map Placed.index := by
    simp [Tree.tokens, Tree.children, Placed.leaf, Tree.index?, List.filterMap_map,
      Function.comp_def]
  rw [conditionOf?, Tree.kind?]
  dsimp only
  rw [pseudoOf?, hindices]
  cases second with
  | none =>
    have hcolons : ((colon :: (function :: (row ++ [close]))).map Placed.index)[1]?.bind r.kind? =
        some (.function name) := by
      rw [← hfunction]
      exact hkind function (by simp)
    rw [Option.toList_none, List.nil_append, hcolons, ← hname]
    rfl
  | some d =>
    have hcolons : ((colon :: d :: function :: (row ++ [close])).map Placed.index)[1]?.bind r.kind? =
        some .colon := by
      rw [← hsecond d rfl]
      exact hkind d (by simp)
    rw [Option.toList_some, List.singleton_append, hcolons, ← hname]
    rfl

end Reading

open Grammar Production

/-- A pseudo-class with a balanced argument is read with the parenthesis that closes it, and stands for
    the text in front of that, exactly if no brace and no square bracket opens in the argument; then the
    compound goes on behind it. -/
theorem compound_pseudo (source : String) (tokens : List Token) {s : Tokens}
    (hs : s <:+ numbered tokens) {parts : List Tree} {colon function close : Placed}
    {second : Option Placed} {row behind : Tokens} {name : String}
    (hreach : CompoundReaches s parts
      (colon :: (second.toList ++ function :: (row ++ close :: behind))))
    (hcolon : colon.kind = .colon) (hsecond : ∀ t ∈ second, t.kind = .colon)
    (hfunction : function.kind = .function name) (hrow : Balanced true row)
    (hclose : close.kind = .closing .paren) :
    let here := colon :: (second.toList ++ function :: (row ++ close :: behind))
    let node := Tree.node .pseudoSelector colon.index
      ((colon :: (second.toList ++ function :: (row ++ [close]))).map Placed.leaf)
    (condition here = .accepted node behind ↔
        ∀ t ∈ row, t.kind ≠ .opening .brace ∧ t.kind ≠ .opening .square) ∧
      (condition here = .accepted node behind → compound s = compoundFrom (parts ++ [node]) behind) ∧
      node.last = close.index ∧
      (⟨source, tokens⟩ : Reading).conditionOf? node = some (.pseudo name
        (some (String.ofList (trimmed (String.join (row.map (·.token.text))).toList)))
        second.isSome) := by
  intro here node
  have hother (t : Placed) : opensOther t = false ↔
      t.kind ≠ .opening .brace ∧ t.kind ≠ .opening .square := by
    simp [opensOther]
  refine ⟨?_, ?_, ?_, ?_⟩
  · rw [condition_pseudo_iff hcolon hsecond hfunction hrow hclose behind]
    simp [hother]
  · intro h
    have hstarts : Tokens.startsWith here startsCondition = true := by
      rw [Tokens.startsWith, hcolon]
      rfl
    exact (hreach.condition hstarts h).compound_eq
  · have hnode : node = .node .pseudoSelector colon.index
        ((colon :: (second.toList ++ function :: row)).map Placed.leaf ++ [close.leaf]) := by
      simp [node]
    rw [hnode, Tree.last, Tree.lastAmong_concat]
    rfl
  · refine Reading.conditionOf?_pseudo hsecond hfunction fun t ht => ?_
    have hmem : t ∈ here := by
      simp only [List.mem_cons, List.mem_append, List.not_mem_nil, or_false] at ht
      simp only [here, List.mem_cons, List.mem_append]
      tauto
    exact mem_numbered (hs.subset (hreach.suffix.subset hmem))

/-- A token without a place. -/
def placed (index : Nat) (kind : TokenKind) (text : String) : Placed := ⟨index, ⟨kind, text, .nowhere⟩⟩

/-- `:not(` with what stands behind it. -/
def notHead (s : Tokens) : Tokens := placed 1 .colon ":" :: placed 2 (.function "not") "not(" :: s

/-- It comes behind an element name. -/
theorem notHead_reached (s : Tokens) : CompoundReaches (placed 0 (.ident "a") "a" :: notHead s)
    [single .elementName (.leaf 0)] (notHead s) :=
  @CompoundReaches.element _ none (some (single .elementName (.leaf 0))) _ _ rfl rfl

/-- ` f(x) `, with a call in it. -/
def callRow : Tokens :=
  [placed 3 .whitespace " ", placed 4 (.function "f") "f(", placed 5 (.ident "x") "x",
    placed 6 (.closing .paren) ")", placed 7 .whitespace " "]

theorem balanced_callRow : Balanced true callRow :=
  .token rfl rfl nofun (@Balanced.group true (placed 4 (.function "f") "f(")
    (placed 6 (.closing .paren) ")") [placed 5 (.ident "x") "x"] [placed 7 .whitespace " "] .paren rfl
    rfl (.token rfl rfl nofun .nil) (.token rfl rfl nofun .nil))

/-- The call is closed in the argument, whose text is trimmed. -/
theorem compound_pseudo_callRow :
    let close := placed 8 (.closing .paren) ")"
    let s := placed 0 (.ident "a") "a" :: notHead (callRow ++ [close])
    let tokens := s.map Placed.token
    let node := Tree.node .pseudoSelector 1 ([1, 2, 3, 4, 5, 6, 7, 8].map Tree.leaf)
    s = numbered tokens ∧ Balanced true callRow ∧
      compound s = .accepted (.node .simpleSelector 0 [single .elementName (.leaf 0), node]) [] ∧
      node.last = 8 ∧
      (⟨"", tokens⟩ : Reading).conditionOf? node = some (.pseudo "not" (some "f(x)") false) := by
  intro close s tokens node
  have hs : s = numbered tokens := rfl
  obtain ⟨haccepted, hcompound, hlast, hcondition⟩ := @compound_pseudo "" tokens s
    (hs ▸ List.suffix_refl _) _ _ _ close none callRow [] "not" (notHead_reached _) rfl nofun rfl
    balanced_callRow rfl
  have hplain : ∀ t ∈ callRow, t.kind ≠ .opening .brace ∧ t.kind ≠ .opening .square := by decide
  have htext : String.ofList (trimmed (String.join (callRow.map (·.token.text))).toList) = "f(x)" :=
    rfl
  rw [htext] at hcondition
  refine ⟨hs, balanced_callRow, ?_, hlast, hcondition⟩
  rw [hcompound (haccepted.2 hplain), compoundFrom, bind_apply, conditions_eq]
  rfl

/-- `[x]`, an attribute in the argument. -/
def squareRow : Tokens :=
  [placed 3 (.opening .square) "[", placed 4 (.ident "x") "x", placed 5 (.closing .square) "]"]

/-- The parenthesis behind the attribute does not end the argument, and the selector is lost. -/
theorem not_accepted_squareRow :
    let close := placed 6 (.closing .paren) ")"
    let behind := [placed 7 (.opening .brace) "\x7b", placed 8 (.closing .brace) "\x7d"]
    let here := notHead (squareRow ++ close :: behind)
    let s := placed 0 (.ident "a") "a" :: here
    let tokens := s.map Placed.token
    s = numbered tokens ∧ CompoundReaches s [single .elementName (.leaf 0)] here ∧
      Balanced true squareRow ∧ (∀ node, condition here ≠ .accepted node behind) ∧
      ((parseTokens "" tokens).tree.nodesBelow [.pseudoSelector]).length = 0 := by
  intro close behind here s tokens
  have hbalanced : Balanced true squareRow :=
    @Balanced.group true (placed 3 (.opening .square) "[") (placed 5 (.closing .square) "]")
      [placed 4 (.ident "x") "x"] [] .square rfl rfl (.token rfl rfl nofun .nil) .nil
  refine ⟨rfl, notHead_reached _, hbalanced, ?_, by decide +kernel⟩
  intro node h
  have hrest : (condition here).rest = [] := rfl
  rw [h] at hrest
  contradiction

end Stylesheet
