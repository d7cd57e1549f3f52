import Stylesheet.Proofs.Grammar.Recovery
import Stylesheet.Proofs.Tree.Derivation
import Stylesheet.Proofs.Tree.Leaves

/-!
# What a production reads

`Reads` ties a stretch of tokens to the row of trees made of it: the row is one of a language, its
trees are derived, and it accounts for the tokens. Rows are put together like the tokens they are
made of (`Reads.cons`, `Reads.star_cons`), and `Accepts` follows a production step by step to the row
it gives: each step takes some tokens from the front, and what it gives depends on nothing else.
-/

namespace Stylesheet.Grammar

open Computability Stylesheet.Tree

/-- Tokens of a list, each under its number, and no `eof` among them. -/
def DrawnFrom (tokens : List Token) (s : Tokens) : Prop :=
  ∀ t ∈ s, tokens[t.index]? = some t.token ∧ t.kind ≠ .eof

theorem DrawnFrom.right {tokens : List Token} {taken rest : Tokens}
    (h : DrawnFrom tokens (taken ++ rest)) : DrawnFrom tokens rest :=
  fun t ht => h t (List.mem_append_right taken ht)

theorem DrawnFrom.tail {tokens : List Token} {t : Placed} {rest : Tokens}
    (h : DrawnFrom tokens (t :: rest)) : DrawnFrom tokens rest :=
  fun u hu => h u (List.mem_cons_of_mem t hu)

theorem DrawnFrom.of_suffix {tokens : List Token} {s left : Tokens} (h : DrawnFrom tokens s)
    (hs : left <:+ s) : DrawnFrom tokens left :=
  fun t ht => h t (hs.subset ht)

theorem DrawnFrom.skipBlank {tokens : List Token} {s : Tokens} (h : DrawnFrom tokens s) :
    DrawnFrom tokens s.skipBlank :=
  h.of_suffix (Tokens.skipBlank_suffix s)

theorem DrawnFrom.left {tokens : List Token} {taken rest : Tokens}
    (h : DrawnFrom tokens (taken ++ rest)) : DrawnFrom tokens taken :=
  fun t ht => h t (List.mem_append_left rest ht)

/-- `row` is made of the tokens `taken`, with the recoveries `rs` on the way: it has the form, it is
    derived, its error nodes hold what was skipped, and what is neither in it nor blank was
    abandoned. -/
structure Reads (tokens : List Token) (form : Language Tree) (taken : Tokens) (row : List Tree)
    (rs : List Recovery) : Prop where
  shape : row ∈ form
  derived : ∀ t ∈ row, Derived tokens t
  errors : errorLeavesAmong row = skippedIn rs
  accounts : Accounts taken (leavesAmong row) (skippedIn rs) (abandonedIn rs)

def Blank (s : Tokens) : Prop := ∀ t ∈ s, Tokens.isBlank t = true

/-- Leading blanks, and the tokens behind them. -/
theorem exists_blank (s : Tokens) : ∃ b, Blank b ∧ s = b ++ Tokens.skipBlank s :=
  ⟨s.takeWhile Tokens.isBlank, List.all_eq_true.1 List.all_takeWhile,
    List.takeWhile_append_dropWhile.symm⟩

namespace Reads

variable {tokens : List Token} {form other : Language Tree} {forms : List (Language Tree)}
  {taken more : Tokens} {row rows : List Tree} {rs qs : List Recovery}

theorem mono (h : Reads tokens form taken row rs) (hm : ∀ row ∈ form, row ∈ other) :
    Reads tokens other taken row rs :=
  ⟨hm row h.shape, h.derived, h.errors, h.accounts⟩

theorem leaf {t : Placed} {p : TokenKind → Bool}
    (ht : tokens[t.index]? = some t.token ∧ t.kind ≠ .eof) (hp : p t.kind = true) :
    Reads tokens (leafOf tokens p) [t] [t.leaf] [] where
  shape := ⟨t.index, t.token, ht.1, ht.2, hp, rfl⟩
  derived := by
    intro u hu
    rw [List.mem_singleton.1 hu]
    exact .leaf t.index
  errors := rfl
  accounts := .leaf t .nil

theorem reshape (h : Reads tokens form taken row rs) (hm : row ∈ form → row ∈ other) :
    Reads tokens other taken row rs :=
  ⟨hm h.shape, h.derived, h.errors, h.accounts⟩

theorem kinds {p q : TokenKind → Bool} (h : Reads tokens (leafOf tokens p) taken row rs)
    (hpq : ∀ k, p k = true → q k = true) : Reads tokens (leafOf tokens q) taken row rs := by
  apply h.mono
  intro row hr
  obtain ⟨i, t, hi, he, hp, rfl⟩ := hr
  exact ⟨i, t, hi, he, hpq t.kind hp, rfl⟩

/-- Blanks may stand in front of anything. -/
theorem blank (hb : Blank more) (h : Reads tokens form taken row rs) :
    Reads tokens form (more ++ taken) row rs :=
  ⟨h.shape, h.derived, h.errors, (Accounts.ofBlank hb).append h.accounts⟩

/-- Blanks may stand behind anything. -/
theorem blankBehind (h : Reads tokens form taken row rs) (hb : Blank more) :
    Reads tokens form (taken ++ more) row rs where
  shape := h.shape
  derived := h.derived
  errors := h.errors
  accounts := by
    have ha := h.accounts.append (Accounts.ofBlank hb)
    rw [List.append_nil, List.append_nil, List.append_nil] at ha
    exact ha

theorem append (h : Reads tokens form taken row rs) (h' : Reads tokens other more rows qs) :
    Reads tokens (form * other) (taken ++ more) (row ++ rows) (rs ++ qs) where
  shape := Language.append_mem_mul h.shape h'.shape
  derived := by
    intro t ht
    rcases List.mem_append.1 ht with ht | ht
    · exact h.derived t ht
    · exact h'.derived t ht
  errors := by
    rw [errorLeavesAmong_append, h.errors, h'.errors, skippedIn, skippedIn, skippedIn,
      List.flatMap_append]
  accounts := by
    rw [leavesAmong_append, skippedIn, abandonedIn, List.flatMap_append, List.flatMap_append]
    exact h.accounts.append h'.accounts

theorem empty (h : [] ∈ form) : Reads tokens form [] [] [] where
  shape := h
  derived := fun _ ht => absurd ht List.not_mem_nil
  errors := rfl
  accounts := .nil

/-! ## Sequences -/

theorem nil : Reads tokens [].prod [] [] [] := empty Language.nil_mem_one

theorem cons (h : Reads tokens form taken row rs) (h' : Reads tokens forms.prod more rows qs) :
    Reads tokens (form :: forms).prod (taken ++ more) (row ++ rows) (rs ++ qs) := by
  rw [List.prod_cons]
  exact h.append h'

/-- Two sequences, one behind the other. -/
theorem join {forms' : List (Language Tree)} (h : Reads tokens forms.prod taken row rs)
    (h' : Reads tokens forms'.prod more rows qs) :
    Reads tokens (forms ++ forms').prod (taken ++ more) (row ++ rows) (rs ++ qs) := by
  rw [List.prod_append]
  exact h.append h'

/-- The last part of a sequence. -/
theorem last (h : Reads tokens form taken row rs) :
    Reads tokens [form].prod (taken ++ []) row rs := by
  have hn := h.cons nil
  rw [List.append_nil row, List.append_nil rs] at hn
  exact hn

/-! ## Repetition and choice -/

theorem star_nil : Reads tokens form∗ [] [] [] := empty (Language.nil_mem_kstar form)

theorem star_cons (h : Reads tokens form taken row rs) (h' : Reads tokens form∗ more rows qs) :
    Reads tokens form∗ (taken ++ more) (row ++ rows) (rs ++ qs) := by
  have ha := h.append h'
  exact ⟨mem_star_cons h.shape h'.shape, ha.derived, ha.errors, ha.accounts⟩

/-- One more part in front of a repetition and what follows it. -/
theorem star_before (h : Reads tokens form taken row rs)
    (h' : Reads tokens (form∗ :: forms).prod more rows qs) :
    Reads tokens (form∗ :: forms).prod (taken ++ more) (row ++ rows) (rs ++ qs) := by
  have ha := h.append h'
  have hs := h'.shape
  rw [List.prod_cons] at hs ⊢
  obtain ⟨front, hf, behind, hb, e⟩ := Language.mem_mul.1 hs
  refine ⟨?_, ha.derived, ha.errors, ha.accounts⟩
  rw [← e, ← List.append_assoc]
  exact Language.append_mem_mul (mem_star_cons h.shape hf) hb

/-- Two parts that are repeated together, once and then again. -/
theorem again {separator part : Language Tree}
    (h : Reads tokens [separator, part, (separator * part)∗].prod taken row rs) :
    Reads tokens (separator * part)∗ taken row rs := by
  apply h.mono
  intro row hr
  rw [List.prod_cons, List.prod_cons, List.prod_cons, List.prod_nil, mul_one, ← mul_assoc] at hr
  rw [← Language.one_add_self_mul_kstar_eq_kstar]
  exact Or.inr hr

theorem absent : Reads tokens (optional form) [] [] [] := empty (mem_optional_nil form)

theorem present (h : Reads tokens form taken row rs) :
    Reads tokens (optional form) taken row rs :=
  h.mono fun _ => mem_optional

theorem inl (h : Reads tokens form taken row rs) : Reads tokens (form + other) taken row rs :=
  h.mono fun _ => Or.inl

theorem inr (h : Reads tokens other taken row rs) : Reads tokens (form + other) taken row rs :=
  h.mono fun _ => Or.inr

/-! ## Nodes -/

/-- A row below a node that is no error node. -/
theorem nodeWith {kind : NodeKind} (hk : kind ≠ .error) (h : Reads tokens form taken row rs)
    (hp : ∀ row ∈ form, row ∈ production (leafOf tokens) kind) (place : Nat) :
    Reads tokens (nodeWith kind form) taken [.node kind place row] rs where
  shape := ⟨place, row, h.shape, rfl⟩
  derived := by
    intro t ht
    rw [List.mem_singleton.1 ht]
    exact .node (hp row h.shape) h.derived
  errors := by
    rw [errorLeavesAmong, errorLeavesAmong, errorLeaves, if_neg hk, List.append_nil]
    exact h.errors
  accounts := by
    rw [leavesAmong, leavesAmong, leaves, List.append_nil]
    exact h.accounts

theorem node {kind : NodeKind} (h : Reads tokens (production (leafOf tokens) kind) taken row rs)
    (hk : kind ≠ .error) (place : Nat) :
    Reads tokens (nodeOf kind) taken [.node kind place row] rs :=
  (nodeWith hk h (fun _ => id) place).mono (nodeWith_le kind _)

/-- A node may stand where more kinds may. -/
theorem widen {kinds others : List NodeKind} (h : Reads tokens (nodeIn kinds) taken row rs)
    (hk : kinds ⊆ others) : Reads tokens (nodeIn others) taken row rs := by
  apply h.mono
  intro row hr
  obtain ⟨kind, hm, place, children, rfl⟩ := hr
  exact mem_nodeIn (hk hm) place children

/-- Skipped tokens, all of them. -/
theorem tokensRow (hs : DrawnFrom tokens taken) :
    (taken.map Placed.leaf) ∈ (leafOf tokens fun _ => true)∗ := by
  induction taken with
  | nil => exact Language.nil_mem_kstar _
  | cons t taken ih =>
    have ht := hs t List.mem_cons_self
    have hl : [t.leaf] ∈ leafOf tokens fun _ => true := ⟨t.index, t.token, ht.1, ht.2, rfl, rfl⟩
    exact mem_star_cons hl (ih hs.tail)

theorem derived_leaf (s : Tokens) : ∀ t ∈ s.map Placed.leaf, Derived tokens t := by
  intro t ht
  obtain ⟨u, -, rfl⟩ := List.mem_map.1 ht
  exact .leaf u.index

/-- Tokens that are kept as they are. -/
theorem leavesOf (hs : DrawnFrom tokens taken) :
    Reads tokens (leafOf tokens fun _ => true)∗ taken (taken.map Placed.leaf) [] where
  shape := tokensRow hs
  derived := derived_leaf taken
  errors := errorLeavesAmong_leaf taken
  accounts := by
    rw [leavesAmong_leaf]
    exact Accounts.ofLeaves taken

/-- Tokens that a production took before it gave up, and those that are skipped behind them. -/
theorem error (given : Tokens) (hs : DrawnFrom tokens taken) (rest : Tokens) (place : Nat) :
    Reads tokens (nodeOf .error) (given ++ taken) [.node .error place (taken.map Placed.leaf)]
      [⟨given ++ (taken ++ rest), taken ++ rest, rest⟩] where
  shape := mem_nodeIn List.mem_cons_self place _
  derived := by
    intro t ht
    rw [List.mem_singleton.1 ht]
    exact .node (tokensRow hs) (derived_leaf taken)
  errors := by
    rw [errorLeavesAmong, errorLeavesAmong, errorLeaves, if_pos rfl, List.append_nil,
      leavesAmong_leaf, skippedIn, List.flatMap_singleton, Recovery.skipped, inFrontOf_append]
  accounts := by
    rw [leavesAmong, leavesAmong, leaves, List.append_nil, leavesAmong_leaf, skippedIn,
      abandonedIn, List.flatMap_singleton, List.flatMap_singleton, Recovery.skipped,
      Recovery.abandoned, inFrontOf_append, inFrontOf_append]
    have h := (Accounts.ofLost given).append (Accounts.ofSkipped taken)
    rw [List.append_nil] at h
    exact h

/-- A tree that need not be there: without it, no token is taken. -/
def Maybe (tokens : List Token) (form : Language Tree) (taken : Tokens) : Option Tree → Prop
  | none => taken = []
  | some t => Reads tokens form taken [t] []

theorem Maybe.optional {t : Option Tree} (h : Maybe tokens form taken t) :
    Reads tokens (optional form) taken t.toList [] := by
  cases t with
  | none =>
    rw [show taken = [] from h]
    exact .absent
  | some t => exact .present h

end Reads

/-! ## Following a production -/

theorem map_eq_accepted {α β : Type} {f : α → β} {o : Outcome α} {b : β} {rest : Tokens}
    (h : o.map f = .accepted b rest) : ∃ a, o = .accepted a rest ∧ b = f a := by
  cases o with
  | accepted a left =>
    cases h
    exact ⟨a, rfl, rfl⟩
  | rejected e left => contradiction

theorem bind_eq_accepted {α β : Type} {p : Production α} {f : α → Production β} {b : β}
    {s rest : Tokens} (h : (p >>= f) s = .accepted b rest) :
    ∃ a between, p s = .accepted a between ∧ f a between = .accepted b rest := by
  rw [Production.bind_apply] at h
  split at h
  · rename_i a between e
    exact ⟨a, between, e, h⟩
  · contradiction

theorem bind_take_eq_accepted {β : Type} {p : TokenKind → Bool} {cause : Tokens → Fault.Cause}
    {f : Tree → Production β} {b : β} {s rest : Tokens}
    (h : (Production.take p cause >>= f) s = .accepted b rest) :
    ∃ t between, s = t :: between ∧ p t.kind = true ∧ f t.leaf between = .accepted b rest := by
  obtain ⟨a, between, e, hf⟩ := bind_eq_accepted h
  cases s with
  | nil => contradiction
  | cons t left =>
    rw [Production.take_cons] at e
    split at e
    · rename_i hp
      cases e
      exact ⟨t, between, rfl, hp, hf⟩
    · contradiction

theorem take?_eq_accepted {p : TokenKind → Bool} {t : Tree} {s rest : Tokens}
    (h : Production.take? p s = .accepted (some t) rest) : ∃ u : Placed, t = u.leaf := by
  cases s with
  | nil => cases h
  | cons u left =>
    rw [Production.take?_cons] at h
    split at h <;> cases h
    exact ⟨u, rfl⟩

/-- Where a production accepts the tokens `s`, it takes some of them from the front, and `Q` says what
    it makes of those. -/
def AcceptsAt {α : Type} (p : Production α) (s : Tokens) (Q : Tokens → α → Prop) : Prop :=
  ∀ a rest, p s = .accepted a rest → ∃ taken, s = taken ++ rest ∧ Q taken a

/-- What a production makes of tokens of a list. -/
def Accepts {α : Type} (tokens : List Token) (p : Production α) (Q : Tokens → α → Prop) : Prop :=
  ∀ s, DrawnFrom tokens s → AcceptsAt p s Q

section

variable {α β : Type} {tokens : List Token} {s : Tokens}

theorem AcceptsAt.bind {p : Production α} {f : α → Production β} {P : Tokens → α → Prop}
    {Q : Tokens → β → Prop} (hp : AcceptsAt p s P)
    (hf : ∀ taken a rest, p s = .accepted a rest → s = taken ++ rest → P taken a →
      AcceptsAt (f a) rest fun more b => Q (taken ++ more) b) :
    AcceptsAt (p >>= f) s Q := by
  intro b rest h
  rw [Production.bind_apply] at h
  split at h
  · rename_i a between e
    obtain ⟨taken, rfl, hP⟩ := hp a between e
    obtain ⟨more, rfl, hQ⟩ := hf taken a between e rfl hP b rest h
    exact ⟨taken ++ more, (List.append_assoc taken more rest).symm, hQ⟩
  · contradiction

theorem AcceptsAt.pure {a : α} {Q : Tokens → α → Prop} (h : Q [] a) :
    AcceptsAt (pure a : Production α) s Q := by
  intro b rest e
  cases e
  exact ⟨[], rfl, h⟩

theorem AcceptsAt.congr {p q : Production α} {Q : Tokens → α → Prop} (e : p s = q s)
    (h : AcceptsAt q s Q) : AcceptsAt p s Q := by
  intro a rest ha
  rw [e] at ha
  exact h a rest ha

/-- One token in front, and its trees in front of what the rest gives. -/
theorem AcceptsAt.cons {p : Production α} {f : α → β} {t : Placed} {P : Tokens → α → Prop}
    {Q : Tokens → β → Prop} (hp : AcceptsAt p s P)
    (hf : ∀ taken a, P taken a → Q ([t] ++ taken) (f a)) :
    ∀ b rest, (p s).map f = .accepted b rest → ∃ taken, t :: s = taken ++ rest ∧ Q taken b := by
  intro b rest h
  obtain ⟨a, e, rfl⟩ := map_eq_accepted h
  obtain ⟨taken, e', hP⟩ := hp a rest e
  exact ⟨[t] ++ taken, by rw [e']; rfl, hf taken a hP⟩

theorem AcceptsAt.mono {p : Production α} {P Q : Tokens → α → Prop} (h : AcceptsAt p s P)
    (hm : ∀ taken a, P taken a → Q taken a) : AcceptsAt p s Q := by
  intro a rest e
  obtain ⟨taken, e', hP⟩ := h a rest e
  exact ⟨taken, e', hm taken a hP⟩

namespace Accepts

variable {p : Production α} {f : α → Production β}

theorem bind {P : Tokens → α → Prop} {Q : Tokens → β → Prop} (hp : Accepts tokens p P)
    (hf : ∀ taken a, P taken a → Accepts tokens (f a) fun more b => Q (taken ++ more) b) :
    Accepts tokens (p >>= f) Q := by
  intro s hs
  apply AcceptsAt.bind (hp s hs)
  intro taken a rest _ e hP
  rw [e] at hs
  exact hf taken a hP rest hs.right

theorem pure {a : α} {Q : Tokens → α → Prop} (h : Q [] a) :
    Accepts tokens (pure a : Production α) Q :=
  fun _ _ => AcceptsAt.pure h

theorem take (p : TokenKind → Bool) (cause : Tokens → Fault.Cause) :
    Accepts tokens (Production.take p cause) fun taken t =>
      Reads tokens (leafOf tokens p) taken [t] [] := by
  intro s hs a rest h
  unfold Production.take at h
  split at h
  · contradiction
  · rename_i t left
    split at h
    · rename_i hp
      cases h
      have ht := hs t List.mem_cons_self
      exact ⟨[t], rfl, .leaf ht hp⟩
    · contradiction

theorem take? (p : TokenKind → Bool) :
    Accepts tokens (Production.take? p) (Reads.Maybe tokens (leafOf tokens p)) := by
  intro s hs a rest h
  unfold Production.take? at h
  split at h
  · cases h
    exact ⟨[], rfl, rfl⟩
  · rename_i t left
    split at h
    · rename_i hp
      cases h
      have ht := hs t List.mem_cons_self
      exact ⟨[t], rfl, .leaf ht hp⟩
    · cases h
      exact ⟨[], rfl, rfl⟩

theorem blank : Accepts tokens Production.blank fun taken _ => Blank taken := by
  intro s _ a rest h
  cases h
  obtain ⟨b, hb, e⟩ := exists_blank s
  exact ⟨b, e, hb⟩

theorem ahead : Accepts tokens Production.ahead fun taken _ => taken = [] := by
  intro s _ a rest h
  cases h
  exact ⟨[], rfl, rfl⟩

theorem reject {cause : Tokens → Fault.Cause} {Q : Tokens → α → Prop} :
    Accepts tokens (Production.reject cause) Q := by
  intro s _ a rest h
  contradiction

theorem ite {c : Prop} [Decidable c] {p q : Production α} {Q : Tokens → α → Prop}
    (hp : Accepts tokens p Q) (hq : Accepts tokens q Q) :
    Accepts tokens (if c then p else q) Q := by
  split
  · exact hp
  · exact hq

end Accepts

end

end Stylesheet.Grammar
