import Stylesheet.Proofs.Reading.DocumentShape
import Stylesheet.Proofs.Reading.Places
import Stylesheet.Proofs.Reading.Repeats

/-!
# The descriptors of a font face

A font face looks up the first descriptor of a name, and a rule the last declaration. While the
declarations of a font face are read, what is kept finds for every name what the declarations in front
find from behind (`Keeps`), so both say the same of a block (`Merges`). Each declaration that takes the
place of another is reported once.
-/

namespace Stylesheet

open Grammar Stylesheet.Tree

namespace Reading

variable {r : Reading} {known : List Namespace}

/-! ## Descriptors -/

def sameName (d e : Declaration) : Bool := d.isOf e.name

/-- What is reported of a declaration whose property is named before it. -/
def duplicateDescriptor (r : Reading) (d : Declaration) : Problem :=
  r.problem .duplicateDescriptor d.span [("property", d.name)]

/-- What is kept of declarations: one for each property, and the last of them is found. -/
structure Keeps (ds kept : List Declaration) : Prop where
  names : kept.map (fun d => foldProperty d.name) =
    (firsts sameName [] ds).map fun d => foldProperty d.name
  last : ∀ name, kept.find? (·.isOf name) = ds.reverse.find? (·.isOf name)

theorem isOf_congr (d : Declaration) {a b : String} (h : foldProperty a = foldProperty b) :
    d.isOf a = d.isOf b := by
  rw [Declaration.isOf, Declaration.isOf, sameProperty, sameProperty, h]

theorem find?_replaceDescriptor {d : Declaration} {kept : List Declaration}
    (h : kept.any (·.isOf d.name) = true) (name : String) :
    (replaceDescriptor d kept).find? (·.isOf name) =
      if d.isOf name then some d else kept.find? (·.isOf name) := by
  induction kept with
  | nil => contradiction
  | cons e kept ih =>
    rw [replaceDescriptor]
    cases he : e.isOf d.name with
    | true =>
      -- the replaced descriptor is found by the names of the one in its place
      have hsame : e.isOf name = d.isOf name := by
        have hn : foldProperty e.name = foldProperty d.name := eq_of_beq he
        rw [Declaration.isOf, Declaration.isOf, sameProperty, sameProperty, hn]
      rw [if_pos rfl, List.find?_cons, List.find?_cons, hsame]
      cases d.isOf name with
      | true => rfl
      | false => rfl
    | false =>
      rw [if_neg Bool.false_ne_true, List.find?_cons, List.find?_cons]
      rw [List.any_cons, he, Bool.false_or] at h
      rw [ih h]
      cases hd : d.isOf name with
      | false => rfl
      | true =>
        have hsame : e.isOf name = false := by
          rw [← he]
          exact isOf_congr e (eq_of_beq hd).symm
        rw [hsame]

namespace Keeps

variable {ds kept : List Declaration}

theorem nil : Keeps [] [] := ⟨rfl, fun _ => rfl⟩

theorem any_isOf (h : Keeps ds kept) (d : Declaration) :
    kept.any (·.isOf d.name) = ds.any (sameName · d) := by
  rw [← List.isSome_find?, h.last, List.isSome_find?, List.any_reverse]
  rfl

/-- A declaration whose property is kept takes the place of the one that is kept. -/
theorem replace (h : Keeps ds kept) {d : Declaration} (hd : kept.any (·.isOf d.name) = true) :
    Keeps (ds ++ [d]) (replaceDescriptor d kept) where
  names := by
    rw [replaceDescriptor_names, h.names, firsts_concat, List.nil_append, ← h.any_isOf, hd,
      if_pos rfl, List.append_nil]
  last := by
    intro name
    rw [find?_replaceDescriptor hd, h.last, List.reverse_concat, List.find?_cons]
    cases d.isOf name with
    | true => rfl
    | false => rfl

/-- Any other declaration is kept behind the others. -/
theorem concat (h : Keeps ds kept) {d : Declaration} (hd : ¬kept.any (·.isOf d.name) = true) :
    Keeps (ds ++ [d]) (kept ++ [d]) where
  names := by
    rw [firsts_concat, List.nil_append, ← h.any_isOf, if_neg hd, List.map_append, List.map_append,
      h.names]
  last := by
    intro name
    rw [List.find?_append, List.find?_singleton, List.reverse_concat, List.find?_cons, ← h.last]
    cases hn : d.isOf name with
    | true =>
      have hnone : kept.find? (·.isOf name) = none := by
        rw [← Option.not_isSome_iff_eq_none, List.isSome_find?]
        have hsame (e : Declaration) : e.isOf name = e.isOf d.name :=
          isOf_congr e (eq_of_beq hn).symm
        simpa only [hsame] using hd
      rw [hnone]
      rfl
    | false => rw [if_neg Bool.false_ne_true, Option.or_none]

end Keeps

/-- Declarations are kept one after the other; each whose property is kept already is reported. -/
theorem descriptors_keeps {front kept : List Declaration} (h : Keeps front kept)
    (ds : List Declaration) :
    Keeps (front ++ ds) (r.descriptors kept ds).result ∧
      (r.descriptors kept ds).problems = (repeats sameName front ds).map r.duplicateDescriptor := by
  induction ds generalizing front kept with
  | nil =>
    rw [List.append_nil]
    exact ⟨h, rfl⟩
  | cons d ds ih =>
    rw [descriptors, repeats, ← h.any_isOf]
    split
    · rename_i hd
      obtain ⟨hkeeps, hproblems⟩ := ih (h.replace hd)
      rw [List.append_assoc, List.singleton_append] at hkeeps
      refine ⟨hkeeps, ?_⟩
      rw [Noted.bind_problems, hproblems]
      rfl
    · rename_i hd
      obtain ⟨hkeeps, hproblems⟩ := ih (h.concat hd)
      rw [List.append_assoc, List.singleton_append] at hkeeps
      exact ⟨hkeeps, hproblems⟩

/-- A font face has one descriptor for each property that its declarations name, in the order in which
    they name it first. It is the last declaration of the property, so what is looked up in the face is
    what counts in a rule with these declarations. -/
structure Merges (ds : List Declaration) (f : FontFace) : Prop where
  lastOfEach : List.Forall₂ (fun first d => ds.reverse.find? (·.isOf first.name) = some d)
    (firsts sameName [] ds) f.descriptors
  count : f.descriptors.length + (repeats sameName [] ds).length = ds.length
  lookup : ∀ (x : Rule) (name : String), x.declarations = ds →
    f.descriptor? name = (x.declaration? name).map Declaration.value

/-- Where no property is kept twice, each descriptor is found by its own name. -/
theorem find?_isOf_self {kept : List Declaration}
    (h : (kept.map fun d => foldProperty d.name).Nodup) {d : Declaration} (hd : d ∈ kept) :
    kept.find? (·.isOf d.name) = some d := by
  induction kept with
  | nil => contradiction
  | cons e kept ih =>
    rw [List.map_cons, List.nodup_cons] at h
    rw [List.find?_cons]
    rcases List.mem_cons.1 hd with rfl | hd
    · have hself : d.isOf d.name = true := beq_self_eq_true _
      rw [hself]
    · have hother : e.isOf d.name = false :=
        beq_eq_false_iff_ne.2 fun he => h.1 (List.mem_map.2 ⟨d, hd, he.symm⟩)
      rw [hother]
      exact ih h.2 hd

theorem Keeps.merges {ds : List Declaration} {f : FontFace} (h : Keeps ds f.descriptors)
    (hn : (f.descriptors.map fun d => foldProperty d.name).Nodup) : Merges ds f where
  lastOfEach := by
    have hmap : List.Forall₂ (· = ·) ((firsts sameName [] ds).map fun d => foldProperty d.name)
        (f.descriptors.map fun d => foldProperty d.name) := by
      rw [h.names, List.forall₂_same]
      exact fun _ _ => rfl
    rw [List.forall₂_map_left_iff, List.forall₂_map_right_iff, List.forall₂_iff_zip] at hmap
    refine List.forall₂_iff_zip.2 ⟨hmap.1, fun {first d} hm => ?_⟩
    have hname (e : Declaration) : e.isOf first.name = e.isOf d.name := isOf_congr e (hmap.2 hm)
    simp only [← h.last, hname]
    exact find?_isOf_self hn (List.of_mem_zip hm).2
  count := by
    have hlength := congrArg List.length h.names
    rw [List.length_map, List.length_map] at hlength
    rw [hlength, length_firsts_repeats]
  lookup := by
    intro x name hx
    rw [FontFace.descriptor?, Rule.declaration?, hx, h.last]

/-- The declarations below a node. -/
def declaredIn (r : Reading) (t : Tree) : List Declaration :=
  (t.nodesBelow [.declaration]).filterMap fun u => (r.declaration u).result

theorem filterMap_of_forall₂ {α β : Type} {f : α → Option β} {l : List α} {m : List β}
    (h : List.Forall₂ (fun a b => f a = some b) l m) : l.filterMap f = m := by
  induction h with
  | nil => rfl
  | cons hab _ ih => rw [List.filterMap_cons_some hab, ih]

theorem fontFace_keeps {t : Tree} (h : Derived r.tokens t) (hk : t.kind? = some .fontFaceRule) :
    List.Forall₂ (fun u d => (r.declaration u).result = some d) (t.nodesBelow [.declaration])
        (r.declaredIn t) ∧
      Merges (r.declaredIn t) (r.fontFace t).result ∧
      (r.fontFace t).problems.filter (·.kind == .duplicateDescriptor) =
        (repeats sameName [] (r.declaredIn t)).map r.duplicateDescriptor := by
  obtain ⟨place, children, rfl, hp, hs⟩ := h.row hk
  obtain ⟨i, p, block, rfl⟩ := mem_fontFaceRule hp
  generalize hblock : Tree.node .declarationBlock p block = b at hs
  have hb : Derived r.tokens b := hs _ (by simp)
  have hbk : b.kind? = some .declarationBlock := by rw [← hblock]; rfl
  obtain ⟨hdeclared, -⟩ := declarations_reads hb hbk
  have hbelow : (Tree.node .fontFaceRule place [.leaf i, b]).nodesBelow [.declaration] =
      b.nodesBelow [.declaration] := by
    rw [nodesBelow_node (by decide), List.flatMap_cons, List.flatMap_singleton, nodesBelow_leaf,
      List.nil_append]
  have hds : r.declaredIn (.node .fontFaceRule place [.leaf i, b]) = (r.declarations b).result := by
    rw [declaredIn, hbelow]
    exact filterMap_of_forall₂ hdeclared
  have hread : r.fontFace (.node .fontFaceRule place [.leaf i, b]) = do
      let declarations ← r.declarations b
      return ⟨← r.descriptors [] declarations, r.spanOf (.node .fontFaceRule place [.leaf i, b])⟩ := by
    rw [← hblock]
    rfl
  obtain ⟨hkeeps, hproblems⟩ := descriptors_keeps (r := r) .nil (r.declarations b).result
  rw [hds, hbelow, hread]
  refine ⟨hdeclared, hkeeps.merges (descriptors_nodup [] _ List.nodup_nil), ?_⟩
  rw [Noted.bind_problems, Noted.bind_problems, Noted.pure_problems, List.append_nil,
    List.filter_append, filter_kind_eq_nil (r.only_declarations b).kind_mem (by decide), List.nil_append,
    hproblems]
  refine List.filter_eq_self.2 fun q hq => ?_
  obtain ⟨d, -, rfl⟩ := List.mem_map.1 hq
  rfl

/-- The font face that a statement adds, and what it reports of descriptors; no other statement does. -/
theorem statement_fontFaces (options : Options) (known : List Namespace) (t : Tree) :
    (r.statement options known t).fontFaces =
        ([t].filter (isOf [.fontFaceRule])).map (fun u => (r.fontFace u).result) ∧
      (r.statement options known t).problems.filter (·.kind == .duplicateDescriptor) =
        ([t].filter (isOf [.fontFaceRule])).flatMap
          fun u => (r.fontFace u).problems.filter (·.kind == .duplicateDescriptor) := by
  have hother (hk : t.kind? ≠ some .fontFaceRule) : [t].filter (isOf [.fontFaceRule]) = [] :=
    List.filter_cons_of_neg (by simpa [isOf_iff] using hk)
  rw [statement]
  split
  · rename_i hk
    rw [hother (by simp [hk])]
    exact ⟨(r.namespaceRule_parts known t).2,
      filter_kind_eq_nil (r.only_namespaceRule known t).kind_mem (by decide)⟩
  · rename_i hk
    rw [List.filter_cons_of_pos (isOf_iff.2 ⟨_, by simp, hk⟩), Draft.problems_ofProblems rfl]
    simp
  · rename_i hk
    rw [hother (by simp [hk]), Draft.problems_ofProblems rfl]
    exact ⟨rfl, filter_kind_eq_nil (r.only_mediaRule options known t).kind_mem (by decide)⟩
  · rename_i hk
    rw [hother (by simp [hk]), Draft.problems_ofProblems rfl]
    exact ⟨rfl, filter_kind_eq_nil (r.only_rules options known [] [t]).kind_mem (by decide)⟩
  · rename_i hk
    rw [hother (by simp [hk]), Draft.problems_ofProblems rfl]
    exact ⟨rfl, filter_kind_eq_nil (r.only_rules options known [] [t]).kind_mem (by decide)⟩
  · rename_i hf _ _ _
    rw [hother hf]
    exact ⟨rfl, rfl⟩

theorem statements_fontFaces (options : Options) (known : List Namespace) (ts : List Tree) :
    (r.statements options known ts).fontFaces =
        (ts.filter (isOf [.fontFaceRule])).map (fun u => (r.fontFace u).result) ∧
      (r.statements options known ts).problems.filter (·.kind == .duplicateDescriptor) =
        (ts.filter (isOf [.fontFaceRule])).flatMap
          fun u => (r.fontFace u).problems.filter (·.kind == .duplicateDescriptor) := by
  induction ts generalizing known with
  | nil => exact ⟨rfl, rfl⟩
  | cons t ts ih =>
    obtain ⟨hface, hproblems⟩ := r.statement_fontFaces options known t
    obtain ⟨hfaces, hrest⟩ := ih (known ++ (r.statement options known t).namespaces)
    have hsplit : (t :: ts).filter (isOf [.fontFaceRule]) =
        [t].filter (isOf [.fontFaceRule]) ++ ts.filter (isOf [.fontFaceRule]) :=
      List.filter_append [t] ts
    rw [statements, Draft.problems_append, List.filter_append, hproblems, hrest, hsplit,
      List.map_append, List.flatMap_append, ← hface, ← hfaces]
    exact ⟨rfl, rfl⟩

end Reading

/-- The font faces of a document are those of the tree, each merged from the declarations below its rule;
    a declaration whose property is named before it in the rule is reported once, with its own place and
    name, and nothing else is. -/
theorem buildDocument_fontFaces (source : String) (tokens : List Token) (options : Options) :
    let tree := (parseTokens source tokens).tree
    let r : Reading := ⟨source, tokens⟩
    let b := buildDocument source tokens tree options
    List.Forall₂ (fun t f => List.Forall₂ (fun u d => (r.declaration u).result = some d)
          (t.nodesBelow [.declaration]) (r.declaredIn t) ∧
        Reading.Merges (r.declaredIn t) f ∧ f.span = r.spanOf t)
      (tree.nodesBelow [.fontFaceRule]) b.document.fontFaces ∧
      b.problems.filter (·.kind == .duplicateDescriptor) =
        (tree.nodesBelow [.fontFaceRule]).flatMap fun t =>
          (repeats Reading.sameName [] (r.declaredIn t)).map
            fun d => r.problem .duplicateDescriptor d.span [("property", d.name)] := by
  intro tree r b
  have hk : tree.kind? = some .stylesheet := rfl
  have hd : Derived r.tokens tree := derived_parseTokens source tokens
  obtain ⟨hfaces, hproblems⟩ := r.statements_fontFaces options [] tree.nodes
  have hrule (t : Tree) (ht : t ∈ tree.nodes.filter (isOf [.fontFaceRule])) :=
    Reading.fontFace_keeps (hd.child (List.mem_filter.1 (List.mem_filter.1 ht).1).1)
      (by simpa [isOf_iff] using (List.mem_filter.1 ht).2)
  rw [← Reading.nodes_of_stylesheet hd hk (by simp)]
  refine ⟨?_, ?_⟩
  · show List.Forall₂ _ _ (r.statements options [] tree.nodes).fontFaces
    rw [hfaces]
    refine forall₂_map fun t ht => ?_
    obtain ⟨hdeclared, hmerges, -⟩ := hrule t ht
    exact ⟨hdeclared, hmerges, r.fontFace_span t⟩
  · show List.filter _ (r.statements options [] tree.nodes).problems = _
    rw [hproblems]
    exact List.flatMap_congr fun t ht => (hrule t ht).2.2

end Stylesheet
