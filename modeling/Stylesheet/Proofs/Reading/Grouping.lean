import Stylesheet.Proofs.Reading.WellFormed
import Stylesheet.Proofs.Tree.Covering

/-!
# The grouping of values is faithful

What a value means by its lists is what they read back as (`Value.ReadsBack`): a first value and
others, each behind a separator, where a list binds looser than its parts. A row of values comes
together as the one value that reads back as it (`Value.readsBack_iff`), and a value node is read as
the row of its terms with the separators that stand between them (`Reading.value_readsBack`).
-/

namespace Stylesheet

open Computability Grammar Stylesheet.Tree

namespace Value

mutual

/-- A value reads back as a row of values that are not looked into: it is the only one of them, or a
    list whose parts read back as rows with tighter separators, with its own separator between them.
    Slashes bind tighter than blanks, and these tighter than commas. -/
inductive ReadsBack : Nat → Value → Value → List (Separator × Value) → Prop
  | single (strength : Nat) (v : Value) : ReadsBack strength v v []
  | list {strength : Nat} {s : Separator} (hs : strength ≤ s.strength) {first second v : Value}
      {others : List Value} {more rest : List (Separator × Value)}
      (hfirst : ReadsBack (s.strength + 1) first v more)
      (hrest : PartsReadBack s (second :: others) rest) :
      ReadsBack strength (.list s (first :: second :: others)) v (more ++ rest)

/-- Further parts of a list, each behind the separator of the list. -/
inductive PartsReadBack : Separator → List Value → List (Separator × Value) → Prop
  | nil (s : Separator) : PartsReadBack s [] []
  | cons {s : Separator} {part v : Value} {parts : List Value}
      {more rest : List (Separator × Value)}
      (h : ReadsBack (s.strength + 1) part v more) (hs : PartsReadBack s parts rest) :
      PartsReadBack s (part :: parts) ((s, v) :: (more ++ rest))

end

/-- What reads back tighter reads back looser. -/
theorem ReadsBack.mono {m n : Nat} {w v : Value} {items : List (Separator × Value)}
    (h : ReadsBack n w v items) (hm : m ≤ n) : ReadsBack m w v items := by
  cases h with
  | single => exact .single m _
  | list hs hfirst hrest => exact .list (hm.trans hs) hfirst hrest

/-- The value that a row comes together as reads back as the row. -/
theorem combine_readsBack (v : Value) (items : List (Separator × Value)) :
    ReadsBack 0 (combine v items) v items := by
  refine combine_induction (P := fun n v items w => ReadsBack n w v items)
    (fun h => h.mono (Nat.le_succ _)) (fun s inner v more g others h => ?_)
    (fun v (_ : True) => .single 3 v) trivial (fun _ _ => trivial)
  have parts (gs : List (Value × List (Separator × Value)))
      (hgs : ∀ k ∈ gs, ReadsBack (s.strength + 1) (inner k.1 k.2) k.1 k.2) :
      PartsReadBack s (gs.map fun k => inner k.1 k.2) (gs.flatMap fun g => (s, g.1) :: g.2) := by
    induction gs with
    | nil => exact .nil s
    | cons k gs ih =>
      obtain ⟨hk, hgs⟩ := List.forall_mem_cons.1 hgs
      exact .cons hk (ih hgs)
  obtain ⟨hfirst, hrest⟩ := List.forall_mem_cons.1 h
  exact .list (Nat.le_refl _) hfirst (parts (g :: others) hrest)

mutual

/-- The separators of a value are at least as strong as it binds. -/
theorem ReadsBack.le_strength {n : Nat} {w v : Value} {items : List (Separator × Value)}
    (h : ReadsBack n w v items) : ∀ p ∈ items, n ≤ p.1.strength := by
  match h with
  | .single _ _ => simp
  | .list (s := s) hs hfirst hrest =>
    intro p hp
    rcases List.mem_append.1 hp with hp | hp
    · exact hs.trans (Nat.le_of_succ_le (hfirst.le_strength p hp))
    · exact hs.trans (hrest.le_strength p hp)

theorem PartsReadBack.le_strength {s : Separator} {parts : List Value}
    {items : List (Separator × Value)} (h : PartsReadBack s parts items) :
    ∀ p ∈ items, s.strength ≤ p.1.strength := by
  match h with
  | .nil _ => simp
  | .cons hpart hparts =>
    intro p hp
    rcases List.mem_cons.1 hp with rfl | hp
    · exact Nat.le_refl _
    · rcases List.mem_append.1 hp with hp | hp
      · exact Nat.le_of_succ_le (hpart.le_strength p hp)
      · exact hparts.le_strength p hp

end

/-- The separators of a value that binds tighter than one of them are others. -/
theorem ReadsBack.ne_separator {s : Separator} {w v : Value} {items : List (Separator × Value)}
    (h : ReadsBack (s.strength + 1) w v items) : ∀ p ∈ items, p.1 ≠ s := by
  intro p hp e
  have hle := h.le_strength p hp
  rw [e] at hle
  omega

/-- Between one separator, a list is cut into its parts. -/
theorem PartsReadBack.groups_eq {s : Separator}
    {inner : Value → List (Separator × Value) → Value}
    (hi : ∀ w v items, ReadsBack (s.strength + 1) w v items → inner v items = w)
    {parts : List Value} {rest : List (Separator × Value)} (h : PartsReadBack s parts rest)
    {v : Value} {more : List (Separator × Value)} (hmore : ∀ p ∈ more, p.1 ≠ s) :
    ∃ rows, groups s v (more ++ rest) = (v, more) :: rows ∧
      rows.map (fun row => inner row.1 row.2) = parts := by
  induction parts generalizing rest v more with
  | nil =>
    cases h
    exact ⟨[], by rw [List.append_nil, groups_of_forall hmore], rfl⟩
  | cons part parts ih =>
    cases h with
    | cons hpart hparts =>
      obtain ⟨rows, e, hrows⟩ := ih hparts hpart.ne_separator
      refine ⟨_ :: rows, by rw [groups_append hmore, e], ?_⟩
      rw [List.map_cons, hrows, hi _ _ _ hpart]

/-- Grouping at one separator finds the value, where the tighter ones are grouped already. -/
theorem ReadsBack.grouped_eq {s : Separator} {inner : Value → List (Separator × Value) → Value}
    (hi : ∀ w v items, ReadsBack (s.strength + 1) w v items → inner v items = w) {w v : Value}
    {items : List (Separator × Value)} (h : ReadsBack s.strength w v items) :
    grouped s inner v items = w := by
  have tighter (h : ReadsBack (s.strength + 1) w v items) : grouped s inner v items = w := by
    rw [grouped, groups_of_forall h.ne_separator]
    exact hi w v items h
  cases h with
  | single => exact tighter (.single _ _)
  | @list _ t hs first second _ others more rest hfirst hrest =>
    rcases Nat.lt_or_eq_of_le hs with hlt | heq
    · exact tighter (.list hlt hfirst hrest)
    · cases strength_inj heq
      obtain ⟨rows, e, hrows⟩ := hrest.groups_eq hi (v := v) hfirst.ne_separator
      rw [grouped, e]
      cases rows with
      | nil => contradiction
      | cons row rows =>
        dsimp only
        rw [List.map_cons, hrows, hi _ _ _ hfirst]

/-- A row comes together as the only value that reads back as it. -/
theorem readsBack_iff {w v : Value} {items : List (Separator × Value)} :
    ReadsBack 0 w v items ↔ w = combine v items := by
  refine ⟨fun h => ?_, fun h => h ▸ combine_readsBack v items⟩
  have single (w v : Value) (items : List (Separator × Value))
      (h : ReadsBack (Separator.slash.strength + 1) w v items) : v = w := by
    cases h with
    | single => rfl
    | @list _ s hs => exact absurd (strength_lt s) (Nat.not_lt_of_le hs)
  have slash (w v : Value) (items : List (Separator × Value))
      (h : ReadsBack (Separator.space.strength + 1) w v items) :
      grouped .slash (fun v _ => v) v items = w := h.grouped_eq single
  have space (w v : Value) (items : List (Separator × Value))
      (h : ReadsBack (Separator.comma.strength + 1) w v items) :
      grouped .space (grouped .slash fun v _ => v) v items = w := h.grouped_eq slash
  exact (h.grouped_eq space).symm

end Value

namespace Tree

/-- The tokens in front of each node of a row, behind the node before it. -/
def gaps (gap : List Nat) : List Tree → List (List Nat)
  | [] => []
  | .leaf index :: rest => gaps (gap ++ [index]) rest
  | .node .. :: rest => gap :: gaps [] rest

end Tree

namespace Reading

/-- The separator that tokens between two terms stand for. -/
def separatorAmong (r : Reading) (gap : List Nat) : Separator :=
  if .comma ∈ r.kindsAt gap then .comma
  else if .slash ∈ r.kindsAt gap then .slash
  else .space

/-- The separators between the terms of a value node. -/
def separators (r : Reading) (t : Tree) : List Separator :=
  (Tree.gaps [] t.children).tail.map r.separatorAmong

variable {r : Reading}

theorem separatorAmong_single (i : Nat) : r.separatorAmong [i] = (r.separator? i).getD .space := by
  cases hk : r.kind? i with
  | none => simp [separatorAmong, kindsAt, separator?, hk]
  | some k => cases k <;> simp [separatorAmong, kindsAt, separator?, hk]

/-- A row of terms is read term by term, each behind what stands in front of it. -/
theorem row_result {named : Bool} {ts : List Tree}
    (h : ts ∈ (optional (leafOf r.tokens fun k => isSeparator k || k == .whitespace) *
      termRow named)∗)
    (hterm : ∀ t ∈ ts, [t] ∈ termRow named → ∃ v, (r.term t).result = some v) :
    (ts.filter Tree.isNode).map (fun u => (r.term u).result) =
        (r.row none ts).result.map (fun p => some p.2) ∧
      (Tree.gaps [] ts).map r.separatorAmong = (r.row none ts).result.map Prod.fst := by
  induction h using star_induction with
  | nil => rw [row]; exact ⟨rfl, rfl⟩
  | cons part hpart rest _ ih =>
    obtain ⟨gap, hgap, last, ⟨kind, hkind, place, children, rfl⟩, rfl⟩ :=
      Language.mem_mul.1 hpart
    obtain ⟨v, hv⟩ := hterm (.node kind place children) (by simp)
      (mem_nodeIn hkind place children)
    obtain ⟨ihterms, ihgaps⟩ := ih fun t ht => hterm t (by simp [ht])
    -- the term behind a separator that was read
    have node (pending : Option Separator) :
        (r.row pending (.node kind place children :: rest)).result =
          (pending.getD .space, v) :: (r.row none rest).result := by
      rw [row, Noted.bind_result, hv]
      rfl
    rcases hgap with hgap | hgap
    · rw [(Language.mem_one _).1 hgap, List.nil_append, List.singleton_append, node]
      refine ⟨?_, ?_⟩
      · rw [List.filter_cons_of_pos rfl, List.map_cons, List.map_cons, hv, ihterms]
      · rw [Tree.gaps, List.map_cons, List.map_cons, ihgaps]
        rfl
    · obtain ⟨i, u, -, -, -, rfl⟩ := hgap
      rw [List.singleton_append, List.cons_append, List.singleton_append, row, node]
      refine ⟨?_, ?_⟩
      · rw [List.filter_cons_of_neg (by simp [Tree.isNode]), List.filter_cons_of_pos rfl,
          List.map_cons, List.map_cons, hv, ihterms]
      · rw [Tree.gaps, Tree.gaps, List.map_cons, List.map_cons, ihgaps, List.nil_append,
          separatorAmong_single, Option.or_none]

/-- The value of a node is the only one that reads back as its terms and what separates them. -/
theorem value_readsBack {t : Tree} (h : Derived r.tokens t) (hk : t.kind? = some .value) :
    ∃ first rest,
      t.nodes.map (fun u => (r.term u).result) = some first :: rest.map (fun p => some p.2) ∧
      r.separators t = rest.map Prod.fst ∧
      (r.value t).result = some (Value.combine first rest) := by
  obtain ⟨place, ts, rfl, hrow, -⟩ := h.row hk
  have hterm (u : Tree) (hu : u ∈ ts) (hur : [u] ∈ termRow true) :
      ∃ v, (r.term u).result = some v := ((term_whole h).2 u hu true hur).found
  obtain ⟨front, hfront, rest, hrest, rfl⟩ := Language.mem_mul.1 hrow
  obtain ⟨kind, hkind, place', children, rfl⟩ := hfront
  obtain ⟨first, hfirst⟩ := hterm (.node kind place' children) (by simp)
    (mem_nodeIn hkind place' children)
  obtain ⟨hterms, hgaps⟩ := row_result hrest fun u hu => hterm u (by simp [hu])
  have he : (r.row none ([.node kind place' children] ++ rest)).result =
      (.space, first) :: (r.row none rest).result := by
    rw [List.singleton_append, row, Noted.bind_result, hfirst]
    rfl
  refine ⟨first, (r.row none rest).result, ?_, ?_, ?_⟩
  · rw [Tree.nodes, Tree.children, List.singleton_append, List.filter_cons_of_pos rfl,
      List.map_cons, hfirst, hterms]
  · rw [separators, Tree.children, List.singleton_append, Tree.gaps, List.tail_cons, hgaps]
  · rw [value, Noted.bind_result, Tree.children, he]
    rfl

end Reading

/-- A value node is read as a value, and this is the only one that reads back as the values of the
    terms of the node, with the separators that stand between them; one term is read as it is. -/
theorem parseTokens_grouped (source : String) (tokens : List Token) {t : Tree}
    (ht : t ∈ (parseTokens source tokens).tree.nodesBelow [.value]) :
    let r : Reading := ⟨source, tokens⟩
    ∃ first rest,
      t.nodes.map (fun u => (r.term u).result) = some first :: rest.map (fun p => some p.2) ∧
      r.separators t = rest.map Prod.fst ∧
      ∃ v, (r.value t).result = some v ∧ (∀ w, w.ReadsBack 0 first rest ↔ w = v) ∧
        (rest = [] → v = first) := by
  intro r
  obtain ⟨hd, hk⟩ :=
    Reading.derived_of_nodesBelow (r := r) (derived_parseTokens source tokens) ht
  obtain ⟨first, rest, hterms, hseparators, hv⟩ := Reading.value_readsBack hd hk
  refine ⟨first, rest, hterms, hseparators, _, hv, fun w => Value.readsBack_iff, ?_⟩
  rintro rfl
  rfl

/-- Words with a slash, a blank and a comma between them. -/
def listedTokens : List Token :=
  (tokenize "listed.css" "a\x7bp:a/b c,d\x7d".toList .standard).tokens

/-- The words between slashes are items between blanks, and these are items between commas. -/
theorem parseTokens_grouped_listedTokens :
    let r : Reading := ⟨"listed.css", listedTokens⟩
    ∃ t ∈ (parseTokens "listed.css" listedTokens).tree.nodesBelow [.value],
      r.separators t = [.slash, .space, .comma] ∧ (∃ first rest,
        t.nodes.map (fun u => (r.term u).result) = some first :: rest.map (fun p => some p.2) ∧
        r.separators t = rest.map Prod.fst ∧
        ∃ v, (r.value t).result = some v ∧ (∀ w, w.ReadsBack 0 first rest ↔ w = v) ∧
          (rest = [] → v = first)) := by
  intro r
  have hlength : ((parseTokens "listed.css" listedTokens).tree.nodesBelow [.value]).length = 1 := by
    decide +kernel
  obtain ⟨t, ht⟩ := List.length_eq_one_iff.1 hlength
  have hm : t ∈ (parseTokens "listed.css" listedTokens).tree.nodesBelow [.value] := by
    rw [ht]
    exact List.mem_singleton_self t
  have hseparators : ((parseTokens "listed.css" listedTokens).tree.nodesBelow [.value]).map
      r.separators = [[.slash, .space, .comma]] := by
    decide +kernel
  rw [ht] at hseparators
  exact ⟨t, hm, List.singleton_inj.1 hseparators,
    parseTokens_grouped "listed.css" listedTokens hm⟩

end Stylesheet
