import Mathlib.Data.List.Forall2
import Mathlib.Data.Option.Basic
import Stylesheet.Proofs.Grammar.Equations
import Stylesheet.Proofs.Grammar.Reads

/-!
# Likeness

Two inputs are alike if they have the same tokens in the same order and runs of blanks at the same
places (`Likeness.InputLike`). How the numbers and the places of alike tokens are related, and which
runs stand for each other, is left to a `Likeness`. From alike inputs a production comes to alike
outcomes (`Likeness.ReadsLike`): both accept and give alike trees, or both reject for the same cause,
and what is left is alike again. The relation goes through productions step by step
(`Likeness.ReadsLike.bind`), since none of them tells a run of blanks from a single one.
-/

namespace Stylesheet

open Grammar

/-- How the tokens of two inputs are related: their numbers, their places, and the runs of blanks, given
    by the numbers in them. -/
structure Likeness where
  index : Nat → Nat → Prop
  span : Span → Span → Prop
  span_stop : ∀ {a b}, span a b → span (.point a.stop) (.point b.stop)
  run : List Nat → List Nat → Prop
  run_head : ∀ {is js}, run is js →
    ∃ i is' j js', is = i :: is' ∧ js = j :: js' ∧ index i j

namespace Likeness

variable (L : Likeness)

/-! ## Inputs -/

/-- Tokens that stand for each other. The texts of blanks do not count. -/
structure TokenLike (t u : Placed) : Prop where
  kind : t.kind = u.kind
  text : t.kind ≠ .whitespace → t.token.text = u.token.text
  index : L.index t.index u.index
  span : L.span t.token.span u.token.span

/-- Runs of blanks that stand for each other. -/
structure BlankLike (b b' : Tokens) : Prop where
  left : Blank b
  right : Blank b'
  run : L.run (b.map Placed.index) (b'.map Placed.index)
  span : ∀ t ∈ b.head?, ∀ u ∈ b'.head?, L.span t.token.span u.token.span

/-- The same tokens one after the other, with runs of blanks between them. -/
inductive InputLike : Tokens → Tokens → Prop
  | nil : InputLike [] []
  | cons {t u : Placed} {s s' : Tokens} (h : L.TokenLike t u) (hw : t.kind ≠ .whitespace)
      (hs : InputLike s s') : InputLike (t :: s) (u :: s')
  | run {b b' s s' : Tokens} (h : L.BlankLike b b') (hs : InputLike s s') :
      InputLike (b ++ s) (b' ++ s')

/-- What a production sees of alike inputs: nothing, or alike tokens in front. What follows a token that
    is not blank is alike again. -/
inductive FrontLike : Tokens → Tokens → Prop
  | nil : FrontLike [] []
  | cons {t u : Placed} {r r' : Tokens} (h : L.TokenLike t u)
      (hs : t.kind ≠ .whitespace → L.InputLike r r') : FrontLike (t :: r) (u :: r')

variable {L}

/-- The first blanks of a run. -/
theorem BlankLike.head {b b' : Tokens} (h : L.BlankLike b b') :
    ∃ t r u r', b = t :: r ∧ b' = u :: r' ∧ L.TokenLike t u ∧ t.kind = .whitespace := by
  obtain ⟨i, is, j, js, hi, hj, hij⟩ := L.run_head h.run
  obtain ⟨t, r, rfl, rfl, -⟩ := List.map_eq_cons_iff.1 hi
  obtain ⟨u, r', rfl, rfl, -⟩ := List.map_eq_cons_iff.1 hj
  have ht : t.kind = .whitespace := eq_of_beq (h.left t List.mem_cons_self)
  have hu : u.kind = .whitespace := eq_of_beq (h.right u List.mem_cons_self)
  exact ⟨t, r, u, r', rfl, rfl,
    ⟨ht.trans hu.symm, fun hw => absurd ht hw, hij, h.span t rfl u rfl⟩, ht⟩

namespace InputLike

variable {s s' : Tokens}

theorem front (h : L.InputLike s s') : L.FrontLike s s' := by
  cases h with
  | nil => exact .nil
  | cons h hw hs => exact .cons h fun _ => hs
  | run h hs =>
    obtain ⟨t, r, u, r', rfl, rfl, htu, hw⟩ := h.head
    exact .cons htu fun hn => absurd hw hn

/-- Behind blanks there is nothing, or alike tokens that are no blanks. -/
theorem skipBlank_cases (h : L.InputLike s s') :
    (s.skipBlank = [] ∧ s'.skipBlank = []) ∨ ∃ t r u r', s.skipBlank = t :: r ∧
      s'.skipBlank = u :: r' ∧ L.TokenLike t u ∧ t.kind ≠ .whitespace ∧ L.InputLike r r' := by
  induction h with
  | nil => exact Or.inl ⟨rfl, rfl⟩
  | @cons t u r r' h hw hs =>
    rw [skipBlank_cons hw, skipBlank_cons (h.kind ▸ hw)]
    exact Or.inr ⟨t, r, u, r', rfl, rfl, h, hw, hs⟩
  | run h hs ih =>
    rw [Tokens.skipBlank, Tokens.skipBlank, List.dropWhile_append_of_pos h.left,
      List.dropWhile_append_of_pos h.right]
    exact ih

theorem skipBlank (h : L.InputLike s s') : L.InputLike s.skipBlank s'.skipBlank := by
  obtain ⟨e, e'⟩ | ⟨t, r, u, r', e, e', ht, hw, hr⟩ := h.skipBlank_cases
  · rw [e, e']
    exact .nil
  · rw [e, e']
    exact .cons ht hw hr

theorem kind?_eq (h : L.InputLike s s') : s.kind? = s'.kind? := by
  cases h.front with
  | nil => rfl
  | cons ht => exact congrArg some ht.kind

theorem startsWith_eq (h : L.InputLike s s') (p : TokenKind → Bool) :
    s.startsWith p = s'.startsWith p := by
  cases h.front with
  | nil => rfl
  | cons ht => exact congrArg p ht.kind

theorem isEmpty_eq (h : L.InputLike s s') : s.isEmpty = s'.isEmpty := by
  cases h.front with
  | nil => rfl
  | cons => rfl

theorem found_eq (h : L.InputLike s s') : s.found = s'.found := by
  cases h.front with
  | nil => rfl
  | @cons t u r r' ht _ =>
    have hk : t.token.kind = u.token.kind := ht.kind
    show t.token.describe = u.token.describe
    unfold Token.describe
    rw [hk]
    split
    · rfl
    · rfl
    · rename_i hw
      rw [ht.text fun e => hw (hk.symm.trans e)]

/-- What holds of alike inputs if it holds of all shorter ones. -/
@[elab_as_elim]
theorem byLength {motive : Tokens → Tokens → Prop} (h : L.InputLike s s')
    (step : ∀ s s', L.InputLike s s' →
      (∀ r r' : Tokens, r.length < s.length → L.InputLike r r' → motive r r') → motive s s') :
    motive s s' := by
  generalize hn : s.length = n
  induction n using Nat.strong_induction_on generalizing s s' with
  | _ n ih => exact step s s' h fun r r' hr hi => ih r.length (hn ▸ hr) hi rfl

end InputLike

/-! ## Trees -/

variable (L)

/-- Numbers of tokens that were skipped. -/
inductive LeavesLike : List Nat → List Nat → Prop
  | nil : LeavesLike [] []
  | cons {i j : Nat} {is js : List Nat} (h : L.index i j) (hs : LeavesLike is js) :
      LeavesLike (i :: is) (j :: js)
  | run {is js is' js' : List Nat} (h : L.run is js) (hs : LeavesLike is' js') :
      LeavesLike (is ++ is') (js ++ js')

/-- The nodes that keep tokens as they stand. -/
def isLoose (kind : NodeKind) : Bool :=
  kind == .error || kind == .unknownAtRule || kind == .pseudoSelector

/-- The same trees over alike inputs. Only where tokens are kept as they stand are there runs of
    blanks, and none in front of the head of an at-rule or of a pseudo-class. -/
inductive TreeLike : Tree → Tree → Prop
  | leaf {i j : Nat} (h : L.index i j) : TreeLike (.leaf i) (.leaf j)
  | node (kind : NodeKind) {place place' : Nat} {ts us : List Tree} (hp : L.index place place')
      (h : List.Forall₂ TreeLike ts us) : TreeLike (.node kind place ts) (.node kind place' us)
  | skipped {place place' : Nat} {is js : List Nat} (hp : L.index place place')
      (h : L.LeavesLike is js) :
      TreeLike (.node .error place (is.map Tree.leaf)) (.node .error place' (js.map Tree.leaf))
  | headed {kind : NodeKind} (hk : isLoose kind = true) {place place' i j : Nat} {is js : List Nat}
      (hp : L.index place place') (hij : L.index i j) (h : L.LeavesLike is js) :
      TreeLike (.node kind place ((i :: is).map Tree.leaf)) (.node kind place' ((j :: js).map Tree.leaf))

/-- Leaves of alike tokens. -/
def LeafLike (t u : Tree) : Prop := ∃ i j, t = .leaf i ∧ u = .leaf j ∧ L.index i j

/-- Rows of leaves of skipped tokens. -/
def RowLike (ts us : List Tree) : Prop :=
  ∃ is js, ts = is.map Tree.leaf ∧ us = js.map Tree.leaf ∧ L.LeavesLike is js

variable {L}

theorem TokenLike.leaf {t u : Placed} (h : L.TokenLike t u) : L.LeafLike t.leaf u.leaf :=
  ⟨t.index, u.index, rfl, rfl, h.index⟩

theorem LeafLike.tree {t u : Tree} (h : L.LeafLike t u) : L.TreeLike t u := by
  obtain ⟨i, j, rfl, rfl, hij⟩ := h
  exact .leaf hij

theorem LeavesLike.head {i j : Nat} {is js : List Nat} (h : L.LeavesLike (i :: is) (j :: js)) :
    L.index i j := by
  generalize hi : i :: is = l at h
  generalize hj : j :: js = m at h
  cases h with
  | nil => contradiction
  | cons h => cases hi; cases hj; exact h
  | run h =>
    obtain ⟨i', is', j', js', rfl, rfl, hij⟩ := L.run_head h
    cases hi
    cases hj
    exact hij

theorem LeavesLike.isEmpty_eq {is js : List Nat} (h : L.LeavesLike is js) :
    is.isEmpty = js.isEmpty := by
  cases h with
  | nil => rfl
  | cons => rfl
  | run h =>
    obtain ⟨i, is', j, js', rfl, rfl, -⟩ := L.run_head h
    rfl

/-- The first tokens of alike trees. -/
theorem TreeLike.first {t u : Tree} (h : L.TreeLike t u) : L.index t.first u.first := by
  match t, u, h with
  | _, _, .leaf h => exact h
  | _, _, .node _ hp .nil => exact hp
  | _, _, .node _ _ (.cons h _) => exact h.first
  | _, _, .headed _ _ hij _ => exact hij
  | _, _, @TreeLike.skipped _ _ _ is js hp h =>
    cases is with
    | nil =>
      cases js with
      | nil => exact hp
      | cons => cases h.isEmpty_eq
    | cons i is =>
      cases js with
      | nil => cases h.isEmpty_eq
      | cons j js => exact h.head

namespace RowLike

theorem nil : L.RowLike [] [] := ⟨[], [], rfl, rfl, .nil⟩

theorem cons {t u : Tree} {ts us : List Tree} (h : L.LeafLike t u) (hs : L.RowLike ts us) :
    L.RowLike (t :: ts) (u :: us) := by
  obtain ⟨i, j, rfl, rfl, hij⟩ := h
  obtain ⟨is, js, rfl, rfl, hs⟩ := hs
  exact ⟨i :: is, j :: js, rfl, rfl, .cons hij hs⟩

/-- The leaves of two runs of blanks. -/
theorem run {b b' : Tokens} {ts us : List Tree} (h : L.BlankLike b b') (hs : L.RowLike ts us) :
    L.RowLike (b.map Placed.leaf ++ ts) (b'.map Placed.leaf ++ us) := by
  obtain ⟨is, js, rfl, rfl, hs⟩ := hs
  refine ⟨b.map Placed.index ++ is, b'.map Placed.index ++ js, ?_, ?_, .run h.run hs⟩
  · rw [List.map_append, List.map_map]
    rfl
  · rw [List.map_append, List.map_map]
    rfl

theorem error {place place' : Nat} {ts us : List Tree} (hp : L.index place place')
    (h : L.RowLike ts us) : L.TreeLike (.node .error place ts) (.node .error place' us) := by
  obtain ⟨is, js, rfl, rfl, h⟩ := h
  exact .skipped hp h

theorem behind {kind : NodeKind} (hk : isLoose kind = true) {place place' : Nat} {t u : Tree}
    {ts us : List Tree} (hp : L.index place place') (ht : L.LeafLike t u) (h : L.RowLike ts us) :
    L.TreeLike (.node kind place (t :: ts)) (.node kind place' (u :: us)) := by
  obtain ⟨i, j, rfl, rfl, hij⟩ := ht
  obtain ⟨is, js, rfl, rfl, h⟩ := h
  exact .headed hk hp hij h

end RowLike

/-! ## Outcomes -/

variable (L)

/-- Faults with one cause, at alike places. -/
structure FaultLike (f g : Fault) : Prop where
  cause : f.cause = g.cause
  place : Option.Rel L.span f.place g.place

/-- Problems that differ only in their places. -/
structure ProblemLike (p q : Problem) : Prop where
  kind : p.kind = q.kind
  source : p.source = q.source
  params : p.params = q.params
  span : L.span p.span q.span

variable {α α' β β' : Type}

inductive OutcomeLike (R : α → β → Prop) : Outcome α → Outcome β → Prop
  | accepted {a : α} {b : β} {r r' : Tokens} (h : R a b) (hs : L.InputLike r r') :
      OutcomeLike R (.accepted a r) (.accepted b r')
  | rejected {f g : Fault} {r r' : Tokens} (h : L.FaultLike f g) (hs : L.InputLike r r') :
      OutcomeLike R (.rejected f r) (.rejected g r')

/-- From alike inputs, two productions come to alike outcomes. -/
def ReadsLike (R : α → β → Prop) (p : Production α) (q : Production β) : Prop :=
  ∀ s s', L.InputLike s s' → L.OutcomeLike R (p s) (q s')

variable {L}

theorem InputLike.fault {s s' : Tokens} (h : L.InputLike s s') {c c' : Fault.Cause} (hc : c = c') :
    L.FaultLike (s.fault c) (s'.fault c') := by
  refine ⟨hc, ?_⟩
  cases h.front with
  | nil => exact .none
  | cons ht => exact .some ht.span

theorem OutcomeLike.map {R : α → β → Prop} {S : α' → β' → Prop} {f : α → α'} {g : β → β'}
    (hfg : ∀ a b, R a b → S (f a) (g b)) {o : Outcome α} {o' : Outcome β}
    (h : L.OutcomeLike R o o') : L.OutcomeLike S (o.map f) (o'.map g) := by
  cases h with
  | accepted h hs => exact .accepted (hfg _ _ h) hs
  | rejected h hs => exact .rejected h hs

namespace ReadsLike

open Production

variable {R : α → β → Prop} {S : α' → β' → Prop}

theorem pure {a : α} {b : β} (h : R a b) :
    L.ReadsLike R (pure a : Production α) (pure b : Production β) :=
  fun _ _ hs => .accepted h hs

/-- Two steps from alike inputs. -/
theorem bind_at {p : Production α} {q : Production β} {f : α → Production α'} {g : β → Production β'}
    {s s' : Tokens} (hp : L.OutcomeLike R (p s) (q s'))
    (hf : ∀ a b r r', p s = .accepted a r → R a b → L.InputLike r r' →
      L.OutcomeLike S (f a r) (g b r')) : L.OutcomeLike S ((p >>= f) s) ((q >>= g) s') := by
  rw [bind_apply, bind_apply]
  generalize hps : p s = o at hp hf
  generalize q s' = o' at hp
  cases hp with
  | accepted h hr => exact hf _ _ _ _ rfl h hr
  | rejected h hr => exact .rejected h hr

theorem bind {p : Production α} {q : Production β} {f : α → Production α'} {g : β → Production β'}
    (hp : L.ReadsLike R p q) (hf : ∀ a b, R a b → L.ReadsLike S (f a) (g b)) :
    L.ReadsLike S (p >>= f) (q >>= g) :=
  fun s s' hs => bind_at (hp s s' hs) fun a b r r' _ h hr => hf a b h r r' hr

theorem blank : L.ReadsLike (fun _ _ => True) blank blank :=
  fun _ _ hs => .accepted trivial hs.skipBlank

theorem ahead : L.ReadsLike L.InputLike ahead ahead := fun _ _ hs => .accepted hs hs

theorem reject {cause cause' : Tokens → Fault.Cause}
    (hc : ∀ s s', L.InputLike s s' → cause s = cause' s') :
    L.ReadsLike R (reject cause) (reject cause') :=
  fun s s' hs => .rejected (hs.fault (hc s s' hs)) hs

/-- A token that is no blank, from inputs where the cause of a fault is the same. -/
theorem take_at {p : TokenKind → Bool} (hp : p .whitespace = false)
    {cause cause' : Tokens → Fault.Cause} {s s' : Tokens} (hs : L.InputLike s s')
    (hc : cause s = cause' s') : L.OutcomeLike L.LeafLike (take p cause s) (take p cause' s') := by
  have hf := hs.fault hc
  cases hs.front with
  | nil => exact .rejected hf .nil
  | @cons t u r r' h hr =>
    rw [take_cons, take_cons, ← h.kind]
    split
    · rename_i ht
      refine .accepted h.leaf (hr fun hw => ?_)
      rw [hw, hp] at ht
      contradiction
    · exact .rejected hf hs

theorem take {p : TokenKind → Bool} (hp : p .whitespace = false) {cause cause' : Tokens → Fault.Cause}
    (hc : ∀ s s', L.InputLike s s' → cause s = cause' s') :
    L.ReadsLike L.LeafLike (take p cause) (take p cause') :=
  fun s s' hs => take_at hp hs (hc s s' hs)

theorem take? {p : TokenKind → Bool} (hp : p .whitespace = false) :
    L.ReadsLike (Option.Rel L.LeafLike) (take? p) (take? p) := by
  intro s s' hs
  cases hs.front with
  | nil => exact .accepted .none .nil
  | @cons t u r r' h hr =>
    rw [take?_cons, take?_cons, ← h.kind]
    split
    · rename_i ht
      refine .accepted (.some h.leaf) (hr fun hw => ?_)
      rw [hw, hp] at ht
      contradiction
    · exact .accepted .none hs

theorem ite {c : Prop} [Decidable c] {p p' : Production α} {q q' : Production β}
    (hp : L.ReadsLike R p q) (hq : L.ReadsLike R p' q') :
    L.ReadsLike R (if c then p else p') (if c then q else q') := by
  split
  · exact hp
  · exact hq

end ReadsLike

end Likeness

end Stylesheet
