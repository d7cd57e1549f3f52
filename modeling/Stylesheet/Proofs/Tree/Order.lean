import Stylesheet.Proofs.Tree.Stop
import Stylesheet.Proofs.Tree.Subtrees

/-!
# The order of a tree

In the tree of a list of tokens every child stands before the next one: it ends at a token in front
of the one that the next begins at, or it is a node without children and was put at that very token.
So a node reaches from where its first child begins to where its last one ends, and everything below
it lies in between (`parseTokens_ordered`).

A row that was read from `s` up to `rest` begins no earlier than the first token of `s`, and ends in
front of `rest`; only a node without children may be put where `rest` begins, and a block that is not
closed may end there if nothing is left (`Stands`). Rows that are read one behind the other are in
order since what is left only gets shorter.
-/

namespace Stylesheet

open Computability Grammar

namespace Tree

/-- A node without children. -/
def isBare : Tree → Bool
  | .node _ _ [] => true
  | _ => false

theorem isBare_iff {t : Tree} : t.isBare = true ↔ t.isNode = true ∧ t.children = [] := by
  cases t with
  | leaf => simp [isBare, isNode]
  | node kind place children => cases children <;> simp [isBare, isNode, children]

/-- The earlier one of two trees, which share at most the token where it was put. -/
def Before (t u : Tree) : Prop := t.last ≤ u.first ∧ (t.last = u.first → t.isBare = true)

/-- In every row of children, each one stands before those behind it. -/
inductive Orderly : Tree → Prop
  | leaf (index : Nat) : Orderly (.leaf index)
  | node (kind : NodeKind) (place : Nat) {children : List Tree} (hs : ∀ t ∈ children, Orderly t)
      (hb : children.Pairwise Before) : Orderly (.node kind place children)

theorem lastAmong_le {place hi : Nat} {ts : List Tree} (hp : place ≤ hi)
    (h : ∀ t ∈ ts, t.last ≤ hi) : lastAmong place ts ≤ hi := by
  induction ts generalizing place with
  | nil => exact hp
  | cons t ts ih =>
    rw [lastAmong]
    exact ih (h t List.mem_cons_self) fun u hu => h u (List.mem_cons_of_mem t hu)

theorem lastAmong_concat (place : Nat) (ts : List Tree) (t : Tree) :
    lastAmong place (ts ++ [t]) = t.last := by
  induction ts generalizing place with
  | nil => rfl
  | cons u ts ih => exact ih u.last

/-- A row in order ends where its last tree does, behind all others. -/
theorem le_lastAmong {place : Nat} {ts : List Tree} (hf : ∀ t ∈ ts, t.first ≤ t.last)
    (hp : ∀ t ∈ ts, place ≤ t.first) (hb : ts.Pairwise Before) :
    place ≤ lastAmong place ts ∧ ∀ t ∈ ts, t.last ≤ lastAmong place ts := by
  induction ts generalizing place with
  | nil => exact ⟨Nat.le_refl _, fun _ ht => absurd ht List.not_mem_nil⟩
  | cons t ts ih =>
    obtain ⟨ht, hts⟩ := List.pairwise_cons.1 hb
    have hbehind : ∀ u ∈ ts, t.last ≤ u.first := fun u hu => (ht u hu).1
    obtain ⟨hlast, hall⟩ := ih (fun u hu => hf u (List.mem_cons_of_mem t hu)) hbehind hts
    rw [lastAmong]
    have hplace : place ≤ t.last :=
      Nat.le_trans (hp t List.mem_cons_self) (hf t List.mem_cons_self)
    refine ⟨Nat.le_trans hplace hlast, fun u hu => ?_⟩
    rcases List.mem_cons.1 hu with rfl | hu
    · exact hlast
    · exact hall u hu

namespace Orderly

theorem first_le_last {t : Tree} (h : Orderly t) : t.first ≤ t.last := by
  induction h with
  | leaf index => exact Nat.le_refl _
  | @node kind place children hs hb ih =>
    cases children with
    | nil => exact Nat.le_refl _
    | cons c cs =>
      have hc : c.first ≤ c.last := ih c List.mem_cons_self
      obtain ⟨hfront, hb⟩ := List.pairwise_cons.1 hb
      have hl := (le_lastAmong (fun t ht => ih t (List.mem_cons_of_mem c ht))
        (fun t ht => (hfront t ht).1) hb).1
      exact Nat.le_trans hc hl

theorem before {t : Tree} (h : Orderly t) : t.children.Pairwise Before := by
  cases h with
  | leaf => exact .nil
  | node _ _ _ hb => exact hb

/-- What stands directly below a node lies in its reach. -/
theorem within {t c : Tree} (h : Orderly t) (hc : c ∈ t.children) :
    t.first ≤ c.first ∧ c.last ≤ t.last := by
  cases h with
  | leaf => exact absurd hc List.not_mem_nil
  | @node kind place children hs hb =>
    change c ∈ children at hc
    cases children with
    | nil => exact absurd hc List.not_mem_nil
    | cons u us =>
      obtain ⟨hfront, hus⟩ := List.pairwise_cons.1 hb
      have hu := (hs u List.mem_cons_self).first_le_last
      obtain ⟨hlast, hall⟩ := le_lastAmong
        (fun t ht => (hs t (List.mem_cons_of_mem u ht)).first_le_last)
        (fun t ht => (hfront t ht).1) hus
      rcases List.mem_cons.1 hc with rfl | hc
      · exact ⟨Nat.le_refl _, hlast⟩
      · exact ⟨Nat.le_trans hu (hfront c hc).1, hall c hc⟩

/-- What stands somewhere below it is in order too and lies in its reach. -/
theorem subtree {t u : Tree} (h : Orderly t) (hu : u ∈ t.subtrees) :
    Orderly u ∧ t.first ≤ u.first ∧ u.last ≤ t.last := by
  induction h with
  | leaf index =>
    rw [List.mem_singleton.1 hu]
    exact ⟨.leaf index, Nat.le_refl _, Nat.le_refl _⟩
  | @node kind place children hs hb ih =>
    rcases List.mem_cons.1 hu with rfl | hu
    · exact ⟨.node kind place hs hb, Nat.le_refl _, Nat.le_refl _⟩
    · obtain ⟨c, hc, hu⟩ := mem_subtreesAmong.1 hu
      obtain ⟨ho, hfirst, hlast⟩ := ih c hc hu
      obtain ⟨hfirst', hlast'⟩ := (Orderly.node kind place hs hb).within hc
      exact ⟨ho, Nat.le_trans hfirst' hfirst, Nat.le_trans hlast hlast'⟩

end Orderly

/-! ## Trees that begin and end with a leaf -/

/-- A tree in order, with a leaf at either end. -/
structure Firm (t : Tree) : Prop where
  orderly : Orderly t
  first_mem : t.first ∈ t.leaves
  last_mem : t.last ∈ t.leaves
  filled : t.isBare = false

theorem before_of_leaves {ts : List Tree} (hf : ∀ t ∈ ts, Firm t)
    (hs : (leavesAmong ts).Pairwise (· < ·)) : ts.Pairwise Before := by
  induction ts with
  | nil => exact .nil
  | cons t ts ih =>
    rw [leavesAmong] at hs
    obtain ⟨-, hts, hbefore⟩ := List.pairwise_append.1 hs
    have hf' : ∀ u ∈ ts, Firm u := fun u hu => hf u (List.mem_cons_of_mem t hu)
    refine .cons (fun u hu => ?_) (ih hf' hts)
    have hlt : t.last < u.first := hbefore _ (hf t List.mem_cons_self).last_mem _
      (leaves_subset hu (hf' u hu).first_mem)
    exact ⟨Nat.le_of_lt hlt, fun e => absurd e (Nat.ne_of_lt hlt)⟩

namespace Firm

theorem leaf (index : Nat) : Firm (.leaf index) :=
  ⟨.leaf index, List.mem_cons_self, List.mem_cons_self, rfl⟩

theorem node {kind : NodeKind} {place : Nat} {ts : List Tree} (hne : ts ≠ [])
    (hf : ∀ t ∈ ts, Firm t) (hs : (leavesAmong ts).Pairwise (· < ·)) :
    Firm (.node kind place ts) where
  orderly := .node kind place (fun t ht => (hf t ht).orderly) (before_of_leaves hf hs)
  first_mem := by
    cases ts with
    | nil => contradiction
    | cons t ts =>
      exact leaves_subset List.mem_cons_self (hf t List.mem_cons_self).first_mem
  last_mem := by
    obtain ⟨front, t, rfl⟩ := (List.eq_nil_or_concat' ts).resolve_left hne
    change lastAmong place (front ++ [t]) ∈ _
    rw [lastAmong_concat]
    have hm : t ∈ front ++ [t] := List.mem_append_right front List.mem_cons_self
    exact leaves_subset hm (hf t hm).last_mem
  filled := by
    cases ts with
    | nil => contradiction
    | cons t ts => rfl

end Firm

end Tree

namespace Grammar

open Stylesheet.Tree

/-- A compact tree whose leaves are in order. -/
theorem Derived.firm {tokens : List Token} {t : Tree} (h : Derived tokens t)
    (hc : Compact t) (hs : t.leaves.Pairwise (· < ·)) : Firm t := by
  induction h with
  | leaf index => exact .leaf index
  | @node kind place children hrow hd ih =>
    have hk : isCompact kind = true := hc kind rfl
    have hne : children ≠ [] := fun e => filledRows_production hk (e ▸ hrow)
    exact .node hne (fun t ht => ih t ht (kindRows_of_closed compact_closed hk children hrow t ht)
      (hs.sublist (infix_leavesAmong ht).sublist)) hs

/-! ## Where reading stands -/

/-- Tokens in the order of their numbers, in front of the stop. -/
structure Ascends (st : Setting) (s : Tokens) : Prop where
  sorted : (s.map Placed.index).Pairwise (· < ·)
  lt_stop : ∀ t ∈ s, t.index < st.stopIndex

section

variable {tokens : List Token} {st : Setting} {s mid left rest taken : Tokens}
  {row more : List Tree}

theorem Ascends.right (h : Ascends st (taken ++ rest)) : Ascends st rest where
  sorted := by
    have hs := h.sorted
    rw [List.map_append] at hs
    exact (List.pairwise_append.1 hs).2.1
  lt_stop := fun t ht => h.lt_stop t (List.mem_append_right taken ht)

theorem Ascends.of_suffix (h : Ascends st s) (hr : rest <:+ s) : Ascends st rest := by
  obtain ⟨taken, rfl⟩ := hr
  exact h.right

theorem Ascends.tail {t : Placed} (h : Ascends st (t :: rest)) : Ascends st rest :=
  h.of_suffix (List.suffix_cons t rest)

/-- What was taken stands in front of what is left. -/
theorem Ascends.lt_position (h : Ascends st (taken ++ rest)) {t : Placed} (ht : t ∈ taken) :
    t.index < st.position rest := by
  cases rest with
  | nil => exact h.lt_stop t (List.mem_append_left _ ht)
  | cons u rest =>
    have hs := h.sorted
    rw [List.map_append] at hs
    exact (List.pairwise_append.1 hs).2.2 t.index (List.mem_map_of_mem ht) u.index
      List.mem_cons_self

theorem Ascends.position_le (h : Ascends st s) {t : Placed} (ht : t ∈ s) :
    st.position s ≤ t.index := by
  cases s with
  | nil => exact absurd ht List.not_mem_nil
  | cons u s =>
    rcases List.mem_cons.1 ht with rfl | ht
    · exact Nat.le_refl _
    · have hu := (List.pairwise_cons.1 h.sorted).1 t.index (List.mem_map_of_mem ht)
      exact Nat.le_of_lt hu

theorem Ascends.position_mono (h : Ascends st s) (hr : rest <:+ s) :
    st.position s ≤ st.position rest := by
  obtain ⟨taken, rfl⟩ := hr
  cases taken with
  | nil => exact Nat.le_refl _
  | cons t taken => exact Nat.le_of_lt (h.lt_position List.mem_cons_self)

theorem ascends_numbered (source : String) (tokens : List Token) :
    Ascends (setting source tokens) (numbered tokens) where
  sorted := pairwise_index_numbered tokens
  lt_stop := fun _ ht => index_lt_of_mem_numbered ht

/-- A row that was read from `s` up to `rest`. -/
structure Stands (st : Setting) (s rest : Tokens) (row : List Tree) : Prop where
  orderly : ∀ t ∈ row, Orderly t
  before : row.Pairwise Before
  begins : ∀ t ∈ row, st.position s ≤ t.first
  ends : ∀ t ∈ row, t.last ≤ st.position rest ∧
    (t.last = st.position rest → t.isBare = true ∨ rest = [])
  empty : s = [] → row = []

/-- A row whose last tree has children, unless nothing is left. -/
def Shut (rest : Tokens) (row : List Tree) : Prop :=
  rest = [] ∨ ∃ front t, row = front ++ [t] ∧ t.isBare = false

theorem Shut.cons (h : Shut rest row) (t : Tree) : Shut rest (t :: row) := by
  rcases h with h | ⟨front, u, rfl, hu⟩
  · exact Or.inl h
  · exact Or.inr ⟨t :: front, u, rfl, hu⟩

theorem Shut.one {t : Tree} (h : t.isBare = false) : Shut rest [t] := Or.inr ⟨[], t, rfl, h⟩

theorem Shut.ofFirm (hne : row ≠ []) (hf : ∀ t ∈ row, Firm t) : Shut rest row := by
  obtain ⟨front, t, rfl⟩ := (List.eq_nil_or_concat' row).resolve_left hne
  exact Or.inr ⟨front, t, rfl, (hf t (List.mem_append_right front List.mem_cons_self)).filled⟩

/-- Compact trees among tokens in order. -/
theorem Reads.firm {form : Language Tree} {rs : List Recovery} (h : Reads tokens form taken row rs)
    (hc : KindRows isCompact form) (ha : Ascends st (taken ++ rest)) : ∀ t ∈ row, Firm t := by
  intro t ht
  have hs := ha.sorted
  rw [List.map_append] at hs
  have hrow := (List.pairwise_append.1 hs).1.sublist h.accounts.leaves_sublist
  exact (h.derived t ht).firm (hc row h.shape t ht) (hrow.sublist (infix_leavesAmong ht).sublist)

namespace Stands

theorem nil : Stands st s rest [] where
  orderly := fun _ h => absurd h List.not_mem_nil
  before := .nil
  begins := fun _ h => absurd h List.not_mem_nil
  ends := fun _ h => absurd h List.not_mem_nil
  empty := fun _ => rfl

/-- What was read up to `left`, and what was read from there. -/
theorem append (h : Stands st s left row) (hm : Stands st left rest more) (ha : Ascends st s)
    (hl : left <:+ s) (hr : rest <:+ left) : Stands st s rest (row ++ more) where
  orderly := by
    intro t ht
    rcases List.mem_append.1 ht with ht | ht
    · exact h.orderly t ht
    · exact hm.orderly t ht
  before := by
    refine List.pairwise_append.2 ⟨h.before, hm.before, fun t ht u hu => ?_⟩
    obtain ⟨hle, heq⟩ := h.ends t ht
    have hbegins := hm.begins u hu
    refine ⟨Nat.le_trans hle hbegins, fun e => ?_⟩
    -- where nothing is left, nothing is read
    refine (heq (Nat.le_antisymm hle (e ▸ hbegins))).resolve_right fun hn => ?_
    rw [hm.empty hn] at hu
    exact List.not_mem_nil hu
  begins := by
    intro t ht
    rcases List.mem_append.1 ht with ht | ht
    · exact h.begins t ht
    · exact Nat.le_trans (ha.position_mono hl) (hm.begins t ht)
  ends := by
    intro t ht
    rcases List.mem_append.1 ht with ht | ht
    · obtain ⟨hle, heq⟩ := h.ends t ht
      have hmono := (ha.of_suffix hl).position_mono hr
      refine ⟨Nat.le_trans hle hmono, fun e => ?_⟩
      refine (heq (Nat.le_antisymm hle (e ▸ hmono))).imp_right fun hn => ?_
      rw [hn] at hr
      exact List.suffix_nil.1 hr
    · exact hm.ends t ht
  empty := by
    intro e
    rw [e] at hl
    rw [h.empty e, hm.empty (List.suffix_nil.1 hl)]
    rfl

theorem cons {t : Tree} (h : Stands st s left [t]) (hm : Stands st left rest more)
    (ha : Ascends st s) (hl : left <:+ s) (hr : rest <:+ left) : Stands st s rest (t :: more) :=
  h.append hm ha hl hr

/-- What is read behind the first tokens. -/
theorem skip (h : Stands st left rest row) (ha : Ascends st s) (hl : left <:+ s)
    (hr : rest <:+ left) : Stands st s rest row :=
  nil.append h ha hl hr

/-- A node above a row that has a last tree, with children or at the end of the input. -/
theorem node {t : Tree} (h : Stands st s rest (t :: row)) (hs : Shut rest (t :: row))
    (kind : NodeKind) (place : Nat) : Stands st s rest [.node kind place (t :: row)] where
  orderly := by
    intro u hu
    rw [List.mem_singleton.1 hu]
    exact .node kind place h.orderly h.before
  before := List.pairwise_singleton _ _
  begins := by
    intro u hu
    rw [List.mem_singleton.1 hu]
    exact h.begins t List.mem_cons_self
  ends := by
    intro u hu
    rw [List.mem_singleton.1 hu]
    have hle : lastAmong place (t :: row) ≤ st.position rest := by
      rw [lastAmong]
      exact lastAmong_le (h.ends t List.mem_cons_self).1
        fun v hv => (h.ends v (List.mem_cons_of_mem t hv)).1
    refine ⟨hle, fun e => Or.inr ?_⟩
    rcases hs with hs | ⟨front, v, hv, hbare⟩
    · exact hs
    · change lastAmong place (t :: row) = _ at e
      rw [hv, lastAmong_concat] at e
      have hm : v ∈ t :: row := hv ▸ List.mem_append_right front List.mem_cons_self
      refine ((h.ends v hm).2 e).resolve_left fun hb => ?_
      rw [hbare] at hb
      contradiction
  empty := fun e => absurd (h.empty e) (List.cons_ne_nil t row)

/-- Firm trees among the tokens that were taken. -/
theorem ofFirm (hf : ∀ t ∈ row, Firm t)
    (hl : (leavesAmong row).Sublist (taken.map Placed.index)) (ha : Ascends st (taken ++ rest)) :
    Stands st (taken ++ rest) rest row := by
  have hs : (leavesAmong row).Pairwise (· < ·) := by
    have hsorted := ha.sorted
    rw [List.map_append] at hsorted
    exact (List.pairwise_append.1 hsorted).1.sublist hl
  have held {t : Tree} (ht : t ∈ row) {i : Nat} (hi : i ∈ t.leaves) :
      ∃ u ∈ taken, u.index = i :=
    List.mem_map.1 (hl.subset (leaves_subset ht hi))
  refine ⟨fun t ht => (hf t ht).orderly, before_of_leaves hf hs, fun t ht => ?_, fun t ht => ?_, ?_⟩
  · obtain ⟨u, hu, e⟩ := held ht (hf t ht).first_mem
    rw [← e]
    exact ha.position_le (List.mem_append_left rest hu)
  · obtain ⟨u, hu, e⟩ := held ht (hf t ht).last_mem
    have hlt := ha.lt_position hu
    rw [e] at hlt
    exact ⟨Nat.le_of_lt hlt, fun he => absurd he (Nat.ne_of_lt hlt)⟩
  · intro e
    obtain ⟨rfl, -⟩ := List.append_eq_nil_iff.1 e
    cases row with
    | nil => rfl
    | cons t row =>
      obtain ⟨u, hu, -⟩ := held List.mem_cons_self (hf t List.mem_cons_self).first_mem
      contradiction

/-- A tree that is read behind the first tokens, and the row behind it. -/
theorem first {t : Tree} (h : Stands st mid left [t]) (hm : Stands st left rest more)
    (ha : Ascends st s) (hmid : mid <:+ s) (hl : left <:+ mid) (hr : rest <:+ left) :
    Stands st s rest (t :: more) :=
  (h.cons hm (ha.of_suffix hmid) hl hr).skip ha hmid (hr.trans hl)

theorem leaf {t : Placed} (ha : Ascends st (t :: rest)) : Stands st (t :: rest) rest [t.leaf] := by
  have hl : (leavesAmong [t.leaf]).Sublist ([t].map Placed.index) := .refl [t.index]
  exact ofFirm (List.forall_mem_singleton.2 (.leaf t.index)) hl ha

/-- A row of compact trees that was accepted. -/
theorem ofReads {form : Language Tree} {rs : List Recovery} (h : Reads tokens form taken row rs)
    (hc : KindRows isCompact form) (e : s = taken ++ rest) (ha : Ascends st s) :
    Stands st s rest row := by
  subst e
  exact ofFirm (h.firm hc ha) h.accounts.leaves_sublist ha

/-- A node without children. -/
theorem bare (kind : NodeKind) {place : Nat} (hne : s ≠ []) (hs : st.position s ≤ place)
    (hr : place ≤ st.position rest) : Stands st s rest [.node kind place []] where
  orderly := List.forall_mem_singleton.2 (.node _ _ (fun _ h => absurd h List.not_mem_nil) .nil)
  before := List.pairwise_singleton _ _
  begins := List.forall_mem_singleton.2 hs
  ends := List.forall_mem_singleton.2 ⟨hr, fun _ => Or.inl rfl⟩
  empty := fun h => absurd h hne

/-- Skipped tokens, below a node that is put no later than where skipping began. -/
theorem broken {k : Skipped} {place : Nat} (hk : k.Keeps left) (hl : left <:+ s) (hne : s ≠ [])
    (ha : Ascends st s) (hs : st.position s ≤ place) (hp : place ≤ st.position left) :
    Stands st s k.rest [.node .error place k.leaves] := by
  obtain ⟨taken, e, hleaves⟩ := hk
  rw [hleaves]
  cases taken with
  | nil =>
    have hrest : k.rest = left := e.symm
    exact .bare .error hne hs (hrest ▸ hp)
  | cons t taken =>
    have hleft := ha.of_suffix hl
    rw [e] at hleft
    have hfirm : Firm (.node .error place ((t :: taken).map Placed.leaf)) := by
      refine .node (List.cons_ne_nil _ _) (fun u hu => ?_) ?_
      · obtain ⟨v, -, rfl⟩ := List.mem_map.1 hu
        exact .leaf v.index
      · have hsorted := hleft.sorted
        rw [List.map_append] at hsorted
        rw [leavesAmong_leaf]
        exact (List.pairwise_append.1 hsorted).1
    have hrow : Stands st left k.rest [.node .error place ((t :: taken).map Placed.leaf)] := by
      rw [e]
      refine ofFirm (List.forall_mem_singleton.2 hfirm) ?_ hleft
      rw [leavesAmong, leavesAmong, leaves, List.append_nil, leavesAmong_leaf]
    exact hrow.skip ha hl ⟨t :: taken, e.symm⟩

end Stands

/-! ## Blocks -/

/-- A block ends with its brace, or with the input. -/
theorem declarations_shut (st : Setting) (s : Tokens) :
    Shut (declarations st s).rest (declarations st s).result := by
  fun_induction declarations st s with
  | case1 => exact Or.inl rfl
  | case2 => exact .one rfl
  | case3 _ _ t _ _ _ _ _ ih => exact ih.cons t.leaf
  | case4 _ _ _ _ _ _ _ _ d _ _ _ ih => exact ih.cons d
  | case5 _ _ _ _ _ _ _ _ _ _ _ _ ih => exact ih.cons _

theorem declarations_stands (st : Setting) (s : Tokens) (hs : DrawnFrom tokens s)
    (ha : Ascends st s) : Stands st s (declarations st s).rest (declarations st s).result := by
  have hb := Tokens.skipBlank_suffix s
  have hd : DrawnFrom tokens (Tokens.skipBlank s) := hs.skipBlank
  fun_induction declarations st s with
  | case1 s _ h => exact .nil
  | case2 s _ t rest h _ hk =>
    rw [h] at hb
    exact (Stands.leaf (ha.of_suffix hb)).skip ha hb (List.suffix_cons t rest)
  | case3 s _ t rest h _ hk hk' ih =>
    rw [h] at hb hd
    have ht := ha.of_suffix hb
    have hmore := ih hd.tail ht.tail (Tokens.skipBlank_suffix _) hd.tail.skipBlank
    exact (Stands.leaf ht).first hmore ha hb (List.suffix_cons t rest) (declarations_suffix st rest)
  | case4 s _ t rest h _ hk hk' d left hd' _ ih =>
    rw [h] at hb hd
    have ht := ha.of_suffix hb
    obtain ⟨taken, e, hreads⟩ := Accepts.declaration _ hd d left hd'
    have hl : left <:+ t :: rest := ⟨taken, e.symm⟩
    have hleft : DrawnFrom tokens left := (e ▸ hd).right
    have hmore := ih hleft (ht.of_suffix hl) (Tokens.skipBlank_suffix _) hleft.skipBlank
    have hnode : Stands st (t :: rest) left [d] := .ofReads hreads (.nodeIn rfl) e ht
    exact hnode.first hmore ha hb hl (declarations_suffix st left)
  | case5 s _ t rest h _ hk hk' f left hd' _ ih =>
    rw [h] at hb hd
    have ht := ha.of_suffix hb
    have hl : left <:+ t :: rest := by
      have hadvances := declaration_advances (t :: rest)
      rwa [hd'] at hadvances
    have hr : (skipDeclaration 0 left).rest <:+ t :: rest := (skipDeclaration_suffix left 0).trans hl
    have hrest : DrawnFrom tokens (skipDeclaration 0 left).rest := hd.of_suffix hr
    have hmore := ih hrest (ht.of_suffix hr) (Tokens.skipBlank_suffix _) hrest.skipBlank
    have hnode := Stands.broken (skipDeclaration_keeps left 0) hl (List.cons_ne_nil t rest) ht
      (ht.position_mono hl) (Nat.le_refl _)
    exact hnode.first hmore ha hb hr (declarations_suffix st _)

/-- A block behind its brace. -/
theorem declarationBlock_stands {brace : Tree} (hs : DrawnFrom tokens left) (ha : Ascends st s)
    (hl : left <:+ s) (hbrace : Stands st s left [brace]) :
    Stands st s (declarationBlock st brace left).rest [(declarationBlock st brace left).result] :=
  (hbrace.cons (declarations_stands st left hs (ha.of_suffix hl)) ha hl
    (declarations_suffix st left)).node ((declarations_shut st left).cons brace) _ _

theorem unknownAtRule_stands {keyword : Placed} (hs : DrawnFrom tokens (keyword :: rest))
    (hk : isAtKeyword keyword.kind = true) (ha : Ascends st (keyword :: rest)) :
    Stands st (keyword :: rest) (unknownAtRule keyword rest).rest
      [(unknownAtRule keyword rest).result] := by
  obtain ⟨taken, e, hreads⟩ := unknownAtRule_follows hs hk
  exact .ofReads hreads (.nodeIn rfl) e ha

theorem strayToken_stands (expected : String) {t : Placed} (ha : Ascends st (t :: rest)) :
    Stands st (t :: rest) (strayToken st expected t rest).rest
      [(strayToken st expected t rest).result] :=
  (Stands.leaf ha).node (.one rfl) _ _

theorem rule_stands (st : Setting) (hs : DrawnFrom tokens s) (ha : Ascends st s) (hne : s ≠ []) :
    Stands st s (rule st s).rest [(rule st s).result.1] := by
  have hl := rulePrelude_advances s
  rw [rule]
  cases h : rulePrelude s with
  | accepted p left =>
    obtain ⟨taken, e, front, behind, rfl, hselectors, hbrace⟩ := Accepts.rulePrelude s hs p left h
    have hleft : DrawnFrom tokens left := (e ▸ hs).right
    rw [List.append_assoc] at e
    have hf : behind ++ left <:+ s := ⟨front, e.symm⟩
    have hfront : Stands st s (behind ++ left) [p.1] := .ofReads hselectors (.nodeIn rfl) e ha
    have hbehind : Stands st (behind ++ left) left [p.2] :=
      .ofReads hbrace (.leafOf _ _) rfl (ha.of_suffix hf)
    have hblock := declarationBlock_stands hleft (ha.of_suffix hf)
      (List.suffix_append behind left) hbehind
    have hr : (declarationBlock st p.2 left).rest <:+ behind ++ left :=
      (declarations_suffix st left).trans (List.suffix_append behind left)
    exact (hfront.cons hblock ha hf hr).node (Shut.cons (.one rfl) p.1) _ _
  | rejected f left =>
    rw [h] at hl
    exact .broken (skipRule_keeps left 0) hl hne ha (ha.position_mono hl) (Nat.le_refl _)

/-- A broken rule that takes the brace of the block around it has at least that brace. -/
theorem rule_closes (st : Setting) (s : Tokens) (h : (rule st s).result.2 = true) :
    (rule st s).result.1.isBare = false := by
  unfold rule at h ⊢
  split at h
  · contradiction
  · rename_i f left e
    cases left with
    | nil => contradiction
    | cons t left =>
      dsimp only
      rw [skipRule]
      split
      · rfl
      · split
        · split <;> rfl
        · rfl

theorem mediaBlock_shut (st : Setting) (s : Tokens) :
    Shut (mediaBlock st s).rest (mediaBlock st s).result := by
  fun_induction mediaBlock st s with
  | case1 => exact Or.inl rfl
  | case2 => exact .one rfl
  | case3 _ _ _ _ _ _ _ _ _ _ ih => exact ih.cons _
  | case4 _ _ _ _ _ _ _ _ _ _ _ ih => exact ih.cons _
  | case5 _ _ t rest _ _ _ _ _ p _ hc => exact .one (rule_closes st (t :: rest) hc)
  | case6 _ _ _ _ _ _ _ _ _ _ _ _ ih => exact ih.cons _

theorem mediaBlock_stands (st : Setting) (s : Tokens) (hs : DrawnFrom tokens s)
    (ha : Ascends st s) : Stands st s (mediaBlock st s).rest (mediaBlock st s).result := by
  have hb := Tokens.skipBlank_suffix s
  have hd : DrawnFrom tokens (Tokens.skipBlank s) := hs.skipBlank
  fun_induction mediaBlock st s with
  | case1 => exact .nil
  | case2 s _ t rest h _ hk =>
    rw [h] at hb
    exact (Stands.leaf (ha.of_suffix hb)).skip ha hb (List.suffix_cons t rest)
  | case3 s _ t rest h _ hk hk' p _ ih =>
    rw [h] at hb hd
    have ht := ha.of_suffix hb
    have hr : p.rest <:+ t :: rest :=
      (unknownAtRule_suffix t rest).trans (List.suffix_cons t rest)
    have hp : DrawnFrom tokens p.rest := hd.of_suffix hr
    have hmore := ih hp (ht.of_suffix hr) (Tokens.skipBlank_suffix _) hp.skipBlank
    exact (unknownAtRule_stands hd (isAtKeyword_of_isSome hk') ht).first hmore ha hb hr
      (mediaBlock_suffix st _)
  | case4 s _ t rest h _ hk hk' hk'' p _ ih =>
    rw [h] at hb hd
    have ht := ha.of_suffix hb
    have hmore := ih hd.tail ht.tail (Tokens.skipBlank_suffix _) hd.tail.skipBlank
    exact (strayToken_stands "rule" ht).first hmore ha hb (List.suffix_cons t rest)
      (mediaBlock_suffix st _)
  | case5 s _ t rest h _ hk hk' hk'' p _ hc =>
    rw [h] at hb hd
    have hr : p.rest <:+ t :: rest := rule_suffix st (t :: rest)
    exact (rule_stands st hd (ha.of_suffix hb) (List.cons_ne_nil t rest)).skip ha hb hr
  | case6 s _ t rest h _ hk hk' hk'' p _ hc ih =>
    rw [h] at hb hd
    have ht := ha.of_suffix hb
    have hr : p.rest <:+ t :: rest := rule_suffix st (t :: rest)
    have hp : DrawnFrom tokens p.rest := hd.of_suffix hr
    have hmore := ih hp (ht.of_suffix hr) (Tokens.skipBlank_suffix _) hp.skipBlank
    exact (rule_stands st hd ht (List.cons_ne_nil t rest)).first hmore ha hb hr
      (mediaBlock_suffix st _)

/-! ## Statements -/

theorem mediaPrelude_accepted {queries brace : Tree}
    (h : mediaPrelude s = .accepted (queries, brace) left) :
    ∃ row t, mediaQueries s = .accepted row (t :: left) ∧ brace = t.leaf ∧
      queries = .node .mediaQueryList (s.head?.elim 0 (·.index)) row := by
  obtain ⟨_, between, e, h⟩ := bind_eq_accepted h
  cases e
  obtain ⟨row, r, hq, h⟩ := bind_eq_accepted h
  obtain ⟨t, r', rfl, -, h⟩ := bind_take_eq_accepted h
  cases h
  exact ⟨row, t, hq, rfl, rfl⟩

/-- A list of queries is put where it begins, in front of the brace. -/
theorem mediaPrelude_stands {queries brace : Tree} (hs : DrawnFrom tokens s) (ha : Ascends st s)
    (h : mediaPrelude s = .accepted (queries, brace) left) : Stands st s left [queries, brace] := by
  obtain ⟨row, t, hq, rfl, rfl⟩ := mediaPrelude_accepted h
  obtain ⟨taken, e, hreads⟩ := Accepts.mediaQueries s hs row _ hq
  have hl : t :: left <:+ s := ⟨taken, e.symm⟩
  have hbrace : Stands st (t :: left) left [t.leaf] := .leaf (ha.of_suffix hl)
  have hlist : Stands st s (t :: left)
      [.node .mediaQueryList (s.head?.elim 0 (·.index)) row] := by
    cases row with
    | nil =>
      have hne : s ≠ [] := by
        rw [e]
        simp
      have hplace : s.head?.elim 0 (·.index) = st.position s := by
        cases s with
        | nil => contradiction
        | cons u s => rfl
      rw [hplace]
      exact .bare _ hne (Nat.le_refl _) (ha.position_mono hl)
    | cons q row =>
      have hfirm := hreads.firm compact_mediaQueries (e ▸ ha)
      exact (Stands.ofReads hreads compact_mediaQueries e ha).node
        (.ofFirm (List.cons_ne_nil q row) hfirm) _ _
  exact hlist.cons hbrace ha hl (List.suffix_cons t left)

theorem brokenAtRule_stands {keyword : Placed} (f : Fault) (hl : left <:+ rest)
    (ha : Ascends st (keyword :: rest)) :
    Stands st (keyword :: rest) (brokenAtRule st keyword f left).rest
      [(brokenAtRule st keyword f left).result] := by
  have hl' : left <:+ keyword :: rest := hl.trans (List.suffix_cons keyword rest)
  exact .broken (skipStatement_keeps left 0) hl' (List.cons_ne_nil keyword rest) ha
    (Nat.le_refl _) (ha.position_mono hl')

theorem atRule_stands {keyword : Placed} {name : String} (hs : DrawnFrom tokens (keyword :: rest))
    (ha : Ascends st (keyword :: rest)) (hk : keyword? keyword.kind = some name) :
    Stands st (keyword :: rest) (atRule st keyword name rest).rest
      [(atRule st keyword name rest).result] := by
  have hn := namespaceContent_advances rest
  have hf := fontFaceBrace_advances rest
  have hm := (mediaPrelude_advances (Tokens.skipBlank rest)).trans (Tokens.skipBlank_suffix rest)
  have hkeyword : Stands st (keyword :: rest) rest [keyword.leaf] := .leaf ha
  have hrest : rest <:+ keyword :: rest := List.suffix_cons keyword rest
  unfold atRule
  split
  · split
    · rename_i trees missing left h
      obtain ⟨taken, e, hreads⟩ := Accepts.namespaceContent rest hs.tail _ left h
      have hfirm := hreads.firm compact_namespaceContent (e ▸ ha.tail)
      have hcontent := Stands.ofReads hreads compact_namespaceContent e ha.tail
      refine (hkeyword.cons hcontent ha hrest ⟨taken, e.symm⟩).node (.ofFirm (List.cons_ne_nil _ _)
        (List.forall_mem_cons.2 ⟨.leaf keyword.index, hfirm⟩)) _ _
    · rename_i h
      rw [h] at hn
      exact brokenAtRule_stands _ hn ha
  · split
    · split
      · rename_i brace left h
        obtain ⟨front, e, hbrace⟩ := Accepts.fontFaceBrace rest hs.tail brace left h
        have hleft : DrawnFrom tokens left := (e ▸ hs.tail).right
        have hl : left <:+ rest := ⟨front, e.symm⟩
        have hblock := declarationBlock_stands hleft ha.tail hl
          (.ofReads hbrace (.leafOf _ _) e ha.tail)
        exact (hkeyword.cons hblock ha hrest ((declarations_suffix st left).trans hl)).node
          (Shut.cons (.one rfl) _) _ _
      · rename_i h
        rw [h] at hf
        exact brokenAtRule_stands _ hf ha
    · split
      · split
        · rename_i queries brace left h
          rw [h] at hm
          have hleft : DrawnFrom tokens left := hs.tail.of_suffix hm
          have hb := Tokens.skipBlank_suffix rest
          have hl : left <:+ Tokens.skipBlank rest := by
            have hadvances := mediaPrelude_advances (Tokens.skipBlank rest)
            rwa [h] at hadvances
          have hprelude : Stands st rest left [queries, brace] :=
            (mediaPrelude_stands hs.tail.skipBlank (ha.tail.of_suffix hb) h).skip ha.tail hb hl
          have hcontent := hprelude.append
            (mediaBlock_stands st left hleft (ha.tail.of_suffix hm)) ha.tail hm
            (mediaBlock_suffix st left)
          exact (hkeyword.cons hcontent ha hrest ((mediaBlock_suffix st left).trans hm)).node
            ((((mediaBlock_shut st left).cons brace).cons queries).cons _) _ _
        · rename_i h
          rw [h] at hm
          exact brokenAtRule_stands _ hm ha
      · exact unknownAtRule_stands hs (isAtKeyword_of_isSome (by rw [hk]; rfl)) ha

theorem statement_stands {t : Placed} (hs : DrawnFrom tokens (t :: rest))
    (ha : Ascends st (t :: rest)) :
    Stands st (t :: rest) (statement st t rest).rest [(statement st t rest).result] := by
  unfold statement
  split
  · rename_i hk
    exact atRule_stands hs ha hk
  · split
    · exact strayToken_stands _ ha
    · exact rule_stands st hs ha (List.cons_ne_nil t rest)

theorem statements_stands (st : Setting) (s : Tokens) (hs : DrawnFrom tokens s)
    (ha : Ascends st s) : Stands st s (statements st s).rest (statements st s).result := by
  have hb := Tokens.skipBlank_suffix s
  have hd : DrawnFrom tokens (Tokens.skipBlank s) := hs.skipBlank
  fun_induction statements st s with
  | case1 => exact .nil
  | case2 s _ t rest h p hl ih =>
    rw [h] at hb hd
    have ht := ha.of_suffix hb
    have hr : p.rest <:+ t :: rest := (statement_suffix st t rest).trans (List.suffix_cons t rest)
    have hp : DrawnFrom tokens p.rest := hd.of_suffix hr
    have hmore := ih hp (ht.of_suffix hr) (Tokens.skipBlank_suffix _) hp.skipBlank
    have hend : (statements st p.rest).rest <:+ p.rest := by
      rw [statements_rest]
      exact List.nil_suffix
    exact (statement_stands hd ht).first hmore ha hb hr hend

end

end Grammar

/-! ## The whole tree -/

/-- The tree of a list of tokens is in order, and ends no later than the first `eof`. -/
theorem parseTokens_orderly (source : String) (tokens : List Token) :
    (parseTokens source tokens).tree.Orderly ∧
      (parseTokens source tokens).tree.last ≤ tokens.findIdx Token.isEof := by
  have hstands := statements_stands (setting source tokens) (numbered tokens)
    (numbered_drawnFrom tokens) (ascends_numbered source tokens)
  have hstop : (setting source tokens).stopIndex = tokens.findIdx Token.isEof :=
    length_numbered tokens
  rw [statements_rest] at hstands
  refine ⟨.node _ _ hstands.orderly hstands.before, ?_⟩
  rw [← hstop]
  exact Tree.lastAmong_le (Nat.le_refl _) fun t ht => (hstands.ends t ht).1

/-- The tree of any list of tokens is in order. Its leaves ascend and stand in front of the first
    `eof`; every node reaches from a token to one that is not before it and no later than that `eof`,
    and its children lie in its reach, each in front of the next: where one ends at the token that
    the next begins at, it is a node without children. -/
theorem parseTokens_ordered (source : String) (tokens : List Token) :
    let tree := (parseTokens source tokens).tree
    let stop := tokens.findIdx Token.isEof
    tree.leaves.Pairwise (· < ·) ∧ (∀ i ∈ tree.leaves, i < stop) ∧
      ∀ t ∈ tree.subtrees, t.first ≤ t.last ∧ t.last ≤ stop ∧
        (∀ c ∈ t.children, t.first ≤ c.first ∧ c.last ≤ t.last) ∧
        t.children.IsChain fun a b =>
          a.last ≤ b.first ∧ (a.last = b.first → a.isNode = true ∧ a.children = []) := by
  intro tree stop
  obtain ⟨hordered, hlast⟩ := parseTokens_orderly source tokens
  have hleaves := (reads_numbered source tokens).accounts.leaves_sublist
  refine ⟨(ascends_numbered source tokens).sorted.sublist hleaves, fun i hi => ?_, fun t ht => ?_⟩
  · obtain ⟨t, ht, rfl⟩ := List.mem_map.1 (hleaves.subset hi)
    have hlt := index_lt_of_mem_numbered ht
    rwa [length_numbered] at hlt
  · obtain ⟨ho, -, hl⟩ := hordered.subtree ht
    refine ⟨ho.first_le_last, Nat.le_trans hl hlast, fun c hc => ho.within hc, ?_⟩
    exact (ho.before.imp fun h => ⟨h.1, fun e => Tree.isBare_iff.1 (h.2 e)⟩).isChain

end Stylesheet
