import Stylesheet.Proofs.Likeness.Declaration

/-!
# Shifted tokens

The numbers of tokens are names only: with every token numbered `n` higher, a block has the same trees over
the new numbers and the same problems (`declarations_shift`).
-/

namespace Stylesheet

open Grammar

def Placed.shift (n : Nat) (t : Placed) : Placed := { t with index := t.index + n }

def Setting.shift (n : Nat) (st : Setting) : Setting := { st with stopIndex := st.stopIndex + n }

namespace Tree

mutual

/-- A tree over tokens numbered `n` higher. -/
def shift (n : Nat) : Tree → Tree
  | .leaf index => .leaf (index + n)
  | .node kind place children => .node kind (place + n) (shiftAmong n children)

/-- A row of trees over tokens numbered `n` higher. -/
def shiftAmong (n : Nat) : List Tree → List Tree
  | [] => []
  | t :: ts => t.shift n :: shiftAmong n ts

end

theorem shiftAmong_eq (n : Nat) (ts : List Tree) : shiftAmong n ts = ts.map (shift n) := by
  induction ts with
  | nil => rfl
  | cons t ts ih => rw [shiftAmong, ih, List.map_cons]

end Tree

/-- What is read of tokens numbered `n` higher. -/
def Parsed.shift (n : Nat) (p : Parsed (List Tree)) : Parsed (List Tree) :=
  ⟨p.result.map (Tree.shift n), p.problems, p.rest.map (Placed.shift n)⟩

namespace Likeness

/-- Tokens that are the same but for their numbers, which are `n` higher in the second row. -/
def shifting (n : Nat) : Likeness where
  index i j := j = i + n
  span := Eq
  span_stop h := congrArg (fun s => Span.point s.stop) h
  run is js := is ≠ [] ∧ js = is.map (· + n)
  run_head h := by
    obtain ⟨hne, rfl⟩ := h
    cases ‹List Nat› with
    | nil => contradiction
    | cons i is => exact ⟨i, is, i + n, is.map (· + n), rfl, rfl, rfl⟩

variable {n : Nat}

theorem inputLike_shift (s : Tokens) : (shifting n).InputLike s (s.map (Placed.shift n)) := by
  induction s with
  | nil => exact .nil
  | cons t s ih =>
    by_cases hw : t.kind = .whitespace
    · -- a blank is a run of its own
      have hblank : (shifting n).BlankLike [t] [t.shift n] :=
        { left := fun u hu => by rw [List.mem_singleton.1 hu]; exact beq_iff_eq.2 hw
          right := fun u hu => by rw [List.mem_singleton.1 hu]; exact beq_iff_eq.2 hw
          run := ⟨List.cons_ne_nil _ _, rfl⟩
          span := fun u hu v hv => by cases hu; cases hv; rfl }
      exact .run hblank ih
    · exact .cons ⟨rfl, fun _ => rfl, rfl, rfl⟩ hw ih

theorem settingLike_shift (st : Setting) : (shifting n).SettingLike st (st.shift n) :=
  ⟨rfl, rfl, rfl⟩

theorem LeavesLike.eq_shift {is js : List Nat} (h : (shifting n).LeavesLike is js) :
    js.map Tree.leaf = Tree.shiftAmong n (is.map Tree.leaf) := by
  have hjs : js = is.map (· + n) := by
    induction h with
    | nil => rfl
    | cons h _ ih => rw [ih, List.map_cons, show _ = _ from h]
    | run h _ ih => rw [ih, List.map_append, h.2]
  rw [hjs, Tree.shiftAmong_eq, List.map_map, List.map_map]
  rfl

mutual

theorem TreeLike.eq_shift (t u : Tree) (h : (shifting n).TreeLike t u) : u = t.shift n := by
  match t, u, h with
  | .leaf _, .leaf _, .leaf h => exact congrArg Tree.leaf h
  | .node kind _ ts, .node _ _ us, .node _ hp h =>
    rw [Tree.shift, TreesLike.eq_shift ts us h]
    exact congrArg (Tree.node kind · _) hp
  | .node _ _ _, .node _ _ _, .skipped hp h =>
    rw [Tree.shift, h.eq_shift]
    exact congrArg (Tree.node .error · _) hp
  | .node kind _ _, .node _ _ _, .headed _ hp hij h =>
    rw [Tree.shift, (LeavesLike.cons hij h).eq_shift]
    exact congrArg (Tree.node kind · _) hp
termination_by structural t

theorem TreesLike.eq_shift (ts us : List Tree) (h : List.Forall₂ (shifting n).TreeLike ts us) :
    us = Tree.shiftAmong n ts := by
  match ts, us, h with
  | [], [], _ => rfl
  | t :: ts, u :: us, .cons ht h =>
    rw [Tree.shiftAmong, ← TreeLike.eq_shift t u ht, ← TreesLike.eq_shift ts us h]
termination_by structural ts

end

theorem ProblemLike.eq {p q : Problem} (h : (shifting n).ProblemLike p q) : q = p := by
  obtain ⟨kind, source, span, params⟩ := p
  obtain ⟨hk, hs, hp, hspan⟩ := h
  obtain ⟨kind', source', span', params'⟩ := q
  cases hk
  cases hs
  cases hp
  cases hspan
  rfl

theorem problemsLike_eq {ps qs : List Problem} (h : List.Forall₂ (shifting n).ProblemLike ps qs) :
    qs = ps := by
  induction h with
  | nil => rfl
  | cons h _ ih => rw [h.eq, ih]

theorem InputLike.length_eq {s s' : Tokens} (h : (shifting n).InputLike s s') :
    s'.length = s.length := by
  induction h with
  | nil => rfl
  | cons _ _ _ ih => rw [List.length_cons, List.length_cons, ih]
  | run h _ ih =>
    have hb := congrArg List.length h.run.2
    simp only [List.length_map] at hb
    rw [List.length_append, List.length_append, ih, hb]

/-- What is left of shifted tokens are shifted tokens, the blanks among them as well. -/
theorem InputLike.eq_shift {s r r' : Tokens} (h : (shifting n).InputLike r r') (hr : r <:+ s)
    (hr' : r' <:+ s.map (Placed.shift n)) : r' = r.map (Placed.shift n) := by
  have hl : r'.length = (r.map (Placed.shift n)).length := by rw [h.length_eq, List.length_map]
  exact (List.suffix_of_suffix_length_le hr' (hr.map _) (Nat.le_of_eq hl)).eq_of_length hl

/-- What is read of shifted tokens. -/
theorem ParsedLike.eq_shift {p q : Parsed (List Tree)} {s : Tokens}
    (h : (shifting n).ParsedLike (List.Forall₂ (shifting n).TreeLike) p q) (hp : p.rest <:+ s)
    (hq : q.rest <:+ s.map (Placed.shift n)) : q = p.shift n := by
  rw [Parsed.shift, ← Tree.shiftAmong_eq, ← TreesLike.eq_shift _ _ h.result,
    ← h.rest.eq_shift hp hq, ← problemsLike_eq h.problems]

end Likeness

/-- The content of a block over tokens numbered `n` higher. -/
theorem declarations_shift (st : Setting) (n : Nat) (s : Tokens) :
    (declarations (st.shift n) (s.map (Placed.shift n))).result =
        (declarations st s).result.map (Tree.shift n) ∧
      (declarations (st.shift n) (s.map (Placed.shift n))).problems =
        (declarations st s).problems := by
  have h := Likeness.declarations_like (Likeness.settingLike_shift st)
    (Likeness.inputLike_shift (n := n) s)
  have e := h.eq_shift (declarations_suffix st s) (declarations_suffix (st.shift n) _)
  rw [e]
  exact ⟨rfl, rfl⟩

end Stylesheet
