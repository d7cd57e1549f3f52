import Stylesheet.Proofs.Reading.Whole
import Stylesheet.Proofs.Token.Quoted
import Stylesheet.Proofs.Tree.Parts
import Stylesheet.Proofs.Written.Row

/-!
# The shape of what is read

A tree that accounts for tokens of a text is derived, its names are not empty, and a function that
bears the name of an address is called with a string and more (`Sound`). Each of its terms then reads
as an item of a row (`term_item`), and the items come together as a value of the shape that a text can
write again (`value_shaped`).
-/

namespace Stylesheet

open Computability Grammar Stylesheet.Tree

namespace Reading

/-- A tree over tokens of a text. -/
structure Sound (r : Reading) (t : Tree) : Prop where
  derived : Derived r.tokens t
  filled : ∀ i ∈ t.leaves, ∀ u, r.tokens[i]? = some u → u.kind.FilledBy u.text.toList
  quotedUrls : QuotedUrls (visible (r.kindsAt t.leaves))

variable {r : Reading}

theorem Sound.child {t u : Tree} (h : Sound r t) (hu : u ∈ t.children) : Sound r u := by
  cases t with
  | leaf => contradiction
  | node kind place children =>
    have hl : u.leaves <:+: leavesAmong children := infix_leavesAmong hu
    cases h.derived with
    | node _ hs =>
      exact ⟨hs u hu, fun i hi => h.filled i (hl.subset hi),
        h.quotedUrls.infix_of ((hl.filterMap _).filter _)⟩

/-- The tokens that a row of trees accounts for, as they stand in it. -/
theorem visible_accounts {taken : Tokens} {ls : List Nat} (hd : DrawnFrom r.tokens taken)
    (h : Accounts taken ls [] []) :
    visible (r.kindsAt ls) = visible (taken.map Placed.kind) := by
  generalize he : ([] : List Nat) = es at h
  generalize hg : ([] : Tokens) = gone at h
  induction h with
  | nil => rfl
  | leaf t _ ih =>
    have hk : r.kind? t.index = some t.kind := by
      rw [kind?, (hd t List.mem_cons_self).1]
      rfl
    rw [kindsAt_cons hk, List.map_cons]
    exact (visible_append [t.kind] _).trans
      ((congrArg (visible [t.kind] ++ ·) (ih hd.tail he hg)).trans (visible_append [t.kind] _).symm)
  | error => contradiction
  | @blank t ht _ _ _ _ _ ih =>
    have hk : t.kind = .whitespace := eq_of_beq ht
    rw [List.map_cons, hk, ih hd.tail he hg]
    rfl
  | lost => contradiction

/-- Trees that were made of tokens of a text are sound. -/
theorem sound_of_reads {form : Language Tree} {taken : Tokens} {row : List Tree}
    (h : Reads r.tokens form taken row []) (hd : DrawnFrom r.tokens taken) (hg : Genuine taken) :
    ∀ t ∈ row, Sound r t := by
  intro t ht
  have hl := infix_leavesAmong ht
  have hq : QuotedUrls (visible (r.kindsAt (leavesAmong row))) := by
    rw [visible_accounts hd h.accounts]
    exact hg.quotedUrls
  refine ⟨h.derived t ht, fun i hi u hu => ?_, hq.infix_of ((hl.filterMap _).filter _)⟩
  obtain ⟨v, hv, rfl⟩ := List.mem_map.1 (h.accounts.leaves_sublist.subset (hl.subset hi))
  rw [(hd v hv).1] at hu
  cases hu
  exact hg.filled v hv

/-! ## Terms -/

/-- A tree that reads as an item of a row. -/
def ReadsItem (r : Reading) (named : Bool) (t : Tree) : Prop :=
  ∃ v, (r.term t).result = some v ∧ v.IsItem named

/-- A literal stands for a value. -/
theorem literal_item {i : Nat} {u : Token} (hi : r.tokens[i]? = some u)
    (hk : isLiteral u.kind = true) (hf : u.kind.FilledBy u.text.toList) (named : Bool) :
    ∃ v, (r.literal i).result = some v ∧ v.IsItem named := by
  rw [literal, hi]
  dsimp only
  unfold TokenKind.FilledBy at hf
  cases hu : u.kind with
  | number n => exact ⟨_, rfl, by simp [Value.IsItem, Value.IsShaped, Value.rank]⟩
  | percentage n => exact ⟨_, rfl, by simp [Value.IsItem, Value.IsShaped, Value.rank]⟩
  | dimension n unit =>
    rw [hu] at hf
    exact ⟨_, rfl, by simpa [Value.IsItem, Value.IsShaped, Value.rank] using hf⟩
  | string s => exact ⟨_, rfl, by simp [Value.IsItem, Value.IsShaped, Value.rank]⟩
  | url s => exact ⟨_, rfl, by simp [Value.IsItem, Value.IsShaped, Value.rank]⟩
  | ident name =>
    rw [hu] at hf
    exact ⟨_, rfl, by simpa [Value.IsItem, Value.IsShaped, Value.rank] using hf⟩
  | hash digits isId =>
    rw [hu] at hf
    refine ⟨_, rfl, ?_⟩
    rw [hashValue]
    split
    · exact ⟨trivial, rfl⟩
    · exact ⟨by simpa [Value.IsShaped] using hf, rfl⟩
  | _ => rw [hu] at hk; contradiction

/-- What holds of the value of every term holds of all that is read of a row. -/
theorem row_forall {P : Value → Prop} {ts : List Tree}
    (h : ∀ t ∈ ts, t.isNode = true → ∀ v ∈ (r.term t).result, P v) (pending : Option Separator) :
    ∀ p ∈ (r.row pending ts).result, P p.2 := by
  induction ts generalizing pending with
  | nil => simp [row]
  | cons t ts ih =>
    obtain ⟨ht, hts⟩ := List.forall_mem_cons.1 h
    cases t with
    | leaf i => exact ih hts _
    | node kind place children =>
      rw [row, Noted.bind_result]
      cases hv : (r.term (.node kind place children)).result with
      | none => exact ih hts pending
      | some v => exact List.forall_mem_cons.2 ⟨ht rfl v hv, ih hts none⟩

/-- A value reads as items, at least one. -/
theorem row_of_valueRow {named : Bool} {ts : List Tree}
    (hrow : ts ∈ valueRow (leafOf r.tokens) named)
    (hi : ∀ t ∈ ts, [t] ∈ termRow named → r.ReadsItem named t) :
    ∃ p items, (r.row none ts).result = p :: items ∧ p.2.IsItem named ∧
      ∀ q ∈ items, q.2.IsItem named := by
  obtain ⟨first, rest, rfl, hfirst, hrest, -⟩ := mem_valueRow hrow
  have item {t : Tree} (h : r.ReadsItem named t) : ∀ v ∈ (r.term t).result, v.IsItem named := by
    obtain ⟨v, hv, hitem⟩ := h
    intro w hw
    rw [hv] at hw
    exact Option.some.inj hw ▸ hitem
  have hall : ∀ p ∈ (r.row none (first :: rest)).result, p.2.IsItem named :=
    row_forall (P := Value.IsItem named) (List.forall_mem_cons.2
      ⟨fun _ => item (hi first List.mem_cons_self hfirst), fun t ht hn =>
        item (hi t (List.mem_cons_of_mem first ht) ((hrest t ht).resolve_left (by simp [hn])))⟩) none
  cases he : (r.row none (first :: rest)).result with
  | nil =>
    obtain ⟨v, hv, -⟩ := hi first List.mem_cons_self hfirst
    exact absurd he (row_ne_nil List.mem_cons_self hv (isNode_of_termRow hfirst) none)
  | cons p items =>
    rw [he] at hall
    exact ⟨p, items, rfl, List.forall_mem_cons.1 hall⟩

/-- How a term begins; if with a string, this is all of it. -/
theorem term_leaves {named : Bool} {t : Tree} (h : Derived r.tokens t) (hk : [t] ∈ termRow named) :
    ∃ i more k, t.leaves = i :: more ∧ r.kind? i = some k ∧ k ≠ .whitespace ∧
      ∀ s, k = .string s → more = [] ∧ (r.term t).result = some (.string s) := by
  cases h with
  | leaf => exact absurd hk leaf_not_mem
  | node hp _ =>
    rcases mem_termRow hk with rfl | rfl | ⟨rfl, -⟩
    · obtain ⟨i, u, rfl, hi, hu, hl⟩ := leafOf_kind? hp
      refine ⟨i, [], u.kind, rfl, hu, fun e => by rw [e] at hl; contradiction, fun s e => ⟨rfl, ?_⟩⟩
      rw [term, show first (.node .term _ [.leaf i]) = i from rfl, literal, hi]
      dsimp only
      rw [e]
      rfl
    · obtain ⟨f, name, row, c, rfl, hf, -, -⟩ := mem_functionCall hp
      exact ⟨f, _, _, rfl, hf, by simp, fun s e => by contradiction⟩
    · obtain ⟨i, name, e, u, rfl, hi, -⟩ := mem_namedArgument hp
      exact ⟨i, _, _, rfl, hi, by simp, fun s e => by contradiction⟩

theorem visible_kindsAt_cons {i : Nat} {k : TokenKind} (hk : r.kind? i = some k)
    (hw : k ≠ .whitespace) (is : List Nat) :
    visible (r.kindsAt (i :: is)) = k :: visible (r.kindsAt is) := by
  rw [kindsAt_cons hk]
  exact List.filter_cons_of_pos (by simpa using hw)

/-- A function that bears the name of an address is called with a string and more. -/
theorem row_of_url {ts : List Tree} {f c : Nat} {name : String}
    (hq : QuotedUrls (visible (r.kindsAt (f :: (leavesAmong ts ++ [c])))))
    (hf : r.kind? f = some (.function name)) (hc : r.kind? c = some (.closing .paren))
    (hu : sameWord name "url" = true) (hrow : ts ∈ valueRow (leafOf r.tokens) true)
    (hd : ∀ t ∈ ts, Derived r.tokens t) (hi : ∀ t ∈ ts, [t] ∈ termRow true → r.ReadsItem true t) :
    ∃ p s q items, (r.row none ts).result = (p, .string s) :: q :: items := by
  obtain ⟨first, rest, rfl, hfirst, -, hmore⟩ := mem_valueRow hrow
  obtain ⟨i, more, k, hl, hk, hw, hs⟩ := term_leaves (hd first List.mem_cons_self) hfirst
  rw [visible_kindsAt_cons hf (by simp), leavesAmong, hl, List.cons_append, List.cons_append,
    visible_kindsAt_cons hk hw] at hq
  obtain ⟨⟨s, rfl⟩, hclose⟩ := hq [] name k _ rfl hu
  obtain ⟨rfl, hterm⟩ := hs s rfl
  have hrest : rest ≠ [] := by
    rintro rfl
    apply hclose
    rw [leavesAmong, List.append_nil, List.nil_append, visible_kindsAt_cons hc (by simp)]
    rfl
  obtain ⟨t, ht, htr⟩ := hmore.resolve_left hrest
  obtain ⟨v, hv, -⟩ := hi t (List.mem_cons_of_mem first ht) htr
  have hne := row_ne_nil ht hv (isNode_of_termRow htr) none
  cases first with
  | leaf => exact absurd hfirst leaf_not_mem
  | node kind place children =>
    rw [row, Noted.bind_result, hterm]
    cases he : (r.row none rest).result with
    | nil => exact absurd he hne
    | cons q items =>
      refine ⟨.space, s, q, items, ?_⟩
      show _ :: (r.row none rest).result = _
      rw [he]
      rfl

/-- A call is an item, as a color if it stands for one. -/
theorem ofCall_item {name : String} {arguments : List Value} (hn : name.toList ≠ [])
    (hu : sameWord name "url" = true → Value.OpensQuoted arguments)
    (ha : Value.ShapedItems true Separator.comma.strength arguments) (named : Bool) :
    (Value.ofCall name arguments).IsItem named := by
  rw [Value.ofCall]
  split
  · exact ⟨trivial, rfl⟩
  · rename_i hc
    exact ⟨⟨hn, hc, hu, ha⟩, rfl⟩

/-- A function call reads as an item if its arguments do. -/
theorem functionCall_item {place : Nat} {children : List Tree}
    (h : Sound r (.node .functionCall place children))
    (hi : ∀ u ∈ children, ∀ t ∈ u.children, [t] ∈ termRow true → r.ReadsItem true t)
    (named : Bool) : r.ReadsItem named (.node .functionCall place children) := by
  cases h.derived with
  | node hp hs =>
    obtain ⟨f, name, row, c, rfl, hf, hc, hrow⟩ := mem_functionCall hp
    have hname : name.toList ≠ [] := by
      obtain ⟨u, hu, hk⟩ := Option.map_eq_some_iff.1 hf
      have hfilled := h.filled f List.mem_cons_self u hu
      rw [hk] at hfilled
      exact hfilled
    have hq := h.quotedUrls
    have hterm (values : List Value)
        (ha : (r.arguments (row ++ [.leaf c])).result = some values) :
        (r.term (.node .functionCall place (.leaf f :: (row ++ [.leaf c])))).result =
          some (Value.ofCall name values) := by
      rw [term_call hf, Noted.bind_result, ha]
      rfl
    rcases hrow with rfl | ⟨place', ts, rfl, hts⟩
    · have hnone : Value.ShapedItems true Separator.comma.strength [] := trivial
      refine ⟨_, hterm [] rfl, ofCall_item hname (fun hu => ?_) hnone named⟩
      have hleaves : (Tree.node .functionCall place (.leaf f :: ([] ++ [.leaf c]))).leaves =
          [f, c] := rfl
      rw [hleaves, visible_kindsAt_cons hf (by simp), visible_kindsAt_cons hc (by simp)] at hq
      obtain ⟨⟨s, e⟩, -⟩ := hq [] name _ _ rfl hu
      contradiction
    · have hvalue : Tree.node .value place' ts ∈ Tree.leaf f :: ([.node .value place' ts] ++ [.leaf c]) := by
        simp
      have hitems := hi _ hvalue
      obtain ⟨p, items, he, hv, hmore⟩ := row_of_valueRow hts hitems
      have hw := Value.combine_comesFrom hv hmore
      obtain ⟨hshaped, hr⟩ := Value.shapedItems_commaItems hw.shaped
      refine ⟨_, hterm (Value.combine p.2 items).commaItems ?_, ofCall_item hname (fun hu => ?_)
        hshaped named⟩
      · exact (arguments_value _ _ he).1
      · have hd : ∀ t ∈ ts, Derived r.tokens t := fun t ht => ((h.child hvalue).child ht).derived
        have hleaves : (Tree.node .functionCall place
            (.leaf f :: ([.node .value place' ts] ++ [.leaf c]))).leaves =
              f :: (leavesAmong ts ++ [c]) := by
          simp [leaves, leavesAmong]
        rw [hleaves] at hq
        obtain ⟨p', s, q, items', he'⟩ := row_of_url hq hf hc hu hts hd hitems
        rw [he] at he'
        obtain ⟨rfl, rfl⟩ := List.cons.inj he'
        exact ⟨s, q, items', hr.trans hw.row_eq⟩

/-- Every term reads as an item, and so do those directly below. -/
theorem term_items {t : Tree} (h : Sound r t) :
    (∀ named, [t] ∈ termRow named → r.ReadsItem named t) ∧
      ∀ u ∈ t.children, ∀ named, [u] ∈ termRow named → r.ReadsItem named u := by
  have hd := h.derived
  induction hd with
  | leaf => exact ⟨fun _ hk => absurd hk leaf_not_mem, fun u hu => absurd hu List.not_mem_nil⟩
  | @node kind place children hp hs ih =>
    have hbelow (u : Tree) (hu : u ∈ children) := ih u hu (h.child hu)
    refine ⟨fun named hk => ?_, fun u hu => (hbelow u hu).1⟩
    rcases mem_termRow hk with rfl | rfl | ⟨rfl, rfl⟩
    · obtain ⟨i, u, rfl, hi, -, hl⟩ := leafOf_kind? hp
      exact literal_item hi hl (h.filled i List.mem_cons_self u hi) named
    · exact functionCall_item h (fun u hu t ht => (hbelow u hu).2 t ht true) named
    · obtain ⟨i, name, e, u, rfl, hi, hu⟩ := mem_namedArgument hp
      obtain ⟨v, hv, hitem⟩ := (hbelow u (by simp)).1 false hu
      have hname : name.toList ≠ [] := by
        obtain ⟨w, hw, hk⟩ := Option.map_eq_some_iff.1 hi
        have hfilled := h.filled i List.mem_cons_self w hw
        rw [hk] at hfilled
        exact hfilled
      refine ⟨.named name v, ?_, ⟨rfl, hname, hitem.2, hitem.1⟩, rfl⟩
      rw [term_named hi (isNode_of_termRow hu), Noted.bind_result, hv]
      rfl

/-- The value of a value node has the shape of a value. -/
theorem value_shaped {place : Nat} {ts : List Tree} (h : Sound r (.node .value place ts))
    (hrow : ts ∈ valueRow (leafOf r.tokens) false) {v : Value}
    (hv : (r.value (.node .value place ts)).result = some v) : v.IsShaped false := by
  obtain ⟨p, items, he, hitem, hmore⟩ :=
    row_of_valueRow hrow fun t ht htr => (term_items h).2 t ht false htr
  rw [value, Noted.bind_result, show (Tree.node .value place ts).children = ts from rfl, he] at hv
  cases hv
  exact (Value.combine_comesFrom hitem hmore).shaped

end Reading

end Stylesheet
