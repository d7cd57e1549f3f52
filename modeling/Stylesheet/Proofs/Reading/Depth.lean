import Stylesheet.Proofs.Reading.WellFormed
import Stylesheet.Proofs.Tree.Depth

/-!
# The depth of values

A call in a value is a block of the text it came out of, and an address is one if it has quotes. How
many blocks a value makes inside one another is its depth, where it is left open how many an address is
(`Value.depth`). With none for addresses these are calls of the tree of its declaration
(`Reading.declaration_depth_le`), so they are fewer than the blocks of the text
(`buildDocument_depth_lt`).
-/

namespace Stylesheet

open Grammar Stylesheet.Tree

namespace Value

mutual

/-- How many blocks stand inside one another in a value, where each call is one, and each address
    `address` of them. -/
def depth (address : Nat) : Value → Nat
  | .url _ => address
  | .call _ arguments => depthAmong address arguments + 1
  | .named _ value => depth address value
  | .list _ items => depthAmong address items
  | _ => 0

def depthAmong (address : Nat) : List Value → Nat
  | [] => 0
  | v :: rest => max (depth address v) (depthAmong address rest)

end

variable {address n : Nat}

theorem depthAmong_le {items : List Value} :
    depthAmong address items ≤ n ↔ ∀ v ∈ items, v.depth address ≤ n := by
  induction items with
  | nil => simp [depthAmong]
  | cons v items ih => rw [depthAmong, Nat.max_le, ih, List.forall_mem_cons]

mutual

/-- Addresses are innermost, so they count once at most. -/
theorem depth_le (address : Nat) (v : Value) : v.depth address ≤ v.depth 0 + address := by
  match v with
  | .url _ => exact Nat.le_add_left ..
  | .call _ arguments =>
    have := depthAmong_le_add address arguments
    rw [depth, depth]
    omega
  | .named _ value => exact depth_le address value
  | .list _ items => exact depthAmong_le_add address items
  | .string _ | .number _ _ | .ident _ | .color _ => exact Nat.zero_le _

theorem depthAmong_le_add (address : Nat) (items : List Value) :
    depthAmong address items ≤ depthAmong 0 items + address := by
  match items with
  | [] => exact Nat.zero_le _
  | v :: rest =>
    have := depth_le address v
    have := depthAmong_le_add address rest
    rw [depthAmong, depthAmong]
    omega

end

/-- Items come together as a value that is no deeper. -/
theorem combine_depth_le {v : Value} {items : List (Separator × Value)} (hv : v.depth address ≤ n)
    (hi : ∀ p ∈ items, p.2.depth address ≤ n) : (combine v items).depth address ≤ n := by
  refine combine_induction (P := fun _ _ _ w => w.depth address ≤ n) id
    (fun s inner v more g others h => ?_) (fun v (h : v.depth address ≤ n) => h) hv hi
  rw [depth, depthAmong_le]
  intro w hw
  obtain ⟨k, hk, rfl⟩ := List.mem_map.1 hw
  exact h k hk

theorem depthAmong_commaItems (v : Value) : depthAmong address v.commaItems = v.depth address := by
  unfold commaItems
  split
  · rw [depth]
  · exact Nat.max_zero _

theorem ofCall_depth_le {name : String} {arguments : List Value}
    (h : depthAmong address arguments ≤ n) : (ofCall name arguments).depth address ≤ n + 1 := by
  unfold ofCall
  split
  · exact Nat.zero_le _
  · exact Nat.succ_le_succ h

end Value

namespace Reading

variable {r : Reading}

theorem literal_depth (i : Nat) : ∀ v ∈ (r.literal i).result, v.depth 0 = 0 := by
  intro v hv
  unfold literal at hv
  split at hv
  · contradiction
  · split at hv
    case h_7 =>
      cases hv
      unfold hashValue
      split <;> rfl
    case h_8 => contradiction
    all_goals
      cases hv
      rfl

/-- A value has no more calls inside one another than its tree. -/
theorem value_depth_le {place : Nat} {ts : List Tree} {named : Bool}
    (h : Derived r.tokens (.node .value place ts)) (hrow : ts ∈ valueRow (leafOf r.tokens) named)
    {v : Value} (hv : (r.value (.node .value place ts)).result = some v) :
    v.depth 0 ≤ callsAmong ts := by
  have together {ts : List Tree} {p : Separator × Value} {items : List (Separator × Value)}
      (hi : ∀ q ∈ p :: items, ∃ t ∈ ts, q.2.depth 0 ≤ t.calls) :
      (Value.combine p.2 items).depth 0 ≤ callsAmong ts := by
    have hall : ∀ q ∈ p :: items, q.2.depth 0 ≤ callsAmong ts := fun q hq => by
      obtain ⟨t, ht, hq⟩ := hi q hq
      exact Nat.le_trans hq (calls_le_callsAmong ht)
    obtain ⟨hp, hi⟩ := List.forall_mem_cons.1 hall
    exact Value.combine_depth_le hp hi
  have call (place f place' c : Nat) {name : String} {ts : List Tree} {p : Separator × Value}
      {items : List (Separator × Value)} (hi : ∀ q ∈ p :: items, ∃ t ∈ ts, q.2.depth 0 ≤ t.calls) :
      (Value.ofCall name (Value.combine p.2 items).commaItems).depth 0 ≤
        (Tree.node .functionCall place [.leaf f, .node .value place' ts, .leaf c]).calls := by
    have hitems := together hi
    rw [← Value.depthAmong_commaItems] at hitems
    refine Nat.le_trans (Value.ofCall_depth_le hitems) ?_
    simp [callsAmong, calls]
  have argument (place i e : Nat) {t : Tree} {name : String} {v : Value} (hv : v.depth 0 ≤ t.calls) :
      (Value.named name v).depth 0 ≤
        (Tree.node .namedArgument place [.leaf i, .leaf e, t]).calls := by
    simpa [callsAmong, calls, Value.depth] using hv
  obtain ⟨p, items, rfl, hi⟩ := value_items (P := fun _ t v => v.depth 0 ≤ t.calls)
    (fun _ _ i v hv => Nat.le_trans (Nat.le_of_eq (literal_depth i v hv)) (Nat.zero_le _))
    (fun _ _ _ _ _ => Value.ofCall_depth_le (Nat.le_refl 0))
    (fun _ place f place' c _ _ _ _ hi => call place f place' c hi)
    (fun place i e _ _ _ hv => argument place i e hv) h hrow hv
  exact together hi

theorem declaration_depth_le {t : Tree} (h : Derived r.tokens t) (hk : t.kind? = some .declaration)
    {d : Declaration} (hd : (r.declaration t).result = some d) : d.value.depth 0 ≤ t.calls := by
  obtain ⟨place, ts, hm, hts, hv⟩ := declaration_value h hk hd
  have hnode : (Tree.node .value place ts).calls = callsAmong ts := calls_node (by decide) place ts
  have hvalue := value_depth_le (h.child hm) hts hv
  rw [← hnode] at hvalue
  obtain ⟨place', children, rfl, -, -⟩ := h.row hk
  rw [calls_node (by decide)]
  exact Nat.le_trans hvalue (calls_le_callsAmong hm)

end Reading

/-- The declarations of rules and the descriptors of font faces. -/
def Document.declarations (d : Document) : List Declaration :=
  d.fontFaces.flatMap FontFace.descriptors ++ d.rules.flatMap Rule.declarations

theorem Document.value_mem_values {d : Document} {e : Declaration} (h : e ∈ d.declarations) :
    e.value ∈ d.values := by
  rcases List.mem_append.1 h with h | h
  · obtain ⟨f, hf, he⟩ := List.mem_flatMap.1 h
    exact List.mem_append_left _ (List.mem_flatMap.2 ⟨f, hf, List.mem_map_of_mem he⟩)
  · obtain ⟨x, hx, he⟩ := List.mem_flatMap.1 h
    exact List.mem_append_right _
      (List.mem_flatMap.2 ⟨x, hx, List.mem_append_right _ (List.mem_map_of_mem he)⟩)

theorem mem_subtrees_of_styleRules {tree t : Tree} {queries : List Tree}
    (h : (t, queries) ∈ tree.styleRules) : t ∈ tree.subtrees := by
  obtain ⟨c, hc, h⟩ := List.mem_flatMap.1 h
  have hchild {u v : Tree} (hv : v ∈ u.children) : v ∈ u.subtrees :=
    mem_subtrees_of_child hv (self_mem_subtrees v)
  have hc := hchild (List.mem_filter.1 hc).1
  unfold statementRules at h
  split at h
  · cases List.mem_singleton.1 h
    exact hc
  · obtain ⟨u, hu, e⟩ := List.mem_map.1 h
    cases e
    exact mem_subtrees_trans hc (hchild (List.mem_filter.1 hu).1)
  · contradiction

/-- Every declaration of a document is one of the tree. -/
theorem exists_of_declaration {source : String} {tokens : List Token} {options : Options}
    {d : Declaration} (h : d ∈ (buildDocument source tokens (parseTokens source tokens).tree
      options).document.declarations) :
    ∃ t ∈ (parseTokens source tokens).tree.nodesBelow [.declaration],
      ((⟨source, tokens⟩ : Reading).declaration t).result = some d := by
  obtain ⟨hrules, hfaces, -⟩ := buildDocument_reads source tokens options
  rcases List.mem_append.1 h with h | h
  · obtain ⟨f, hf, h⟩ := List.mem_flatMap.1 h
    rw [hfaces] at hf
    obtain ⟨t, ht, rfl⟩ := List.mem_map.1 hf
    obtain ⟨u, hu, huk, hread⟩ := Reading.exists_of_descriptor h
    have hmem : u ∈ t.nodesBelow [.declaration] :=
      List.mem_filter.2 ⟨hu, isOf_iff.2 ⟨_, List.mem_cons_self, huk⟩⟩
    exact ⟨u, mem_nodesBelow_of_subtree (List.mem_filter.1 ht).1 hmem, hread⟩
  · obtain ⟨x, hx, h⟩ := List.mem_flatMap.1 h
    obtain ⟨⟨t, queries⟩, ht, hread⟩ := exists_of_forall₂ hrules hx
    obtain ⟨u, hu, hread⟩ := exists_of_forall₂ hread.declarations h
    exact ⟨u, mem_nodesBelow_of_subtree (mem_subtrees_of_styleRules ht) hu, hread⟩

/-- The calls in the value of a declaration are fewer than the blocks of the text. -/
theorem buildDocument_depth_lt (source : String) (text : List Char) (options options' : Options) :
    let tokens := (tokenize source text options).tokens
    ∀ d ∈ (buildDocument source tokens (parseTokens source tokens).tree options').document.declarations,
      d.value.depth 0 < nestingDepth text := by
  intro tokens d hd
  obtain ⟨t, ht, hread⟩ := exists_of_declaration hd
  obtain ⟨htd, htk⟩ := Reading.derived_of_nodesBelow (r := ⟨source, tokens⟩)
    (derived_parseTokens source tokens) ht
  exact Nat.lt_of_le_of_lt (Reading.declaration_depth_le htd htk hread)
    (parseTokens_calls_lt source text options t ht)

end Stylesheet
