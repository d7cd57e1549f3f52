import Stylesheet.Proofs.Problem.Outcome
import Stylesheet.Proofs.Reading.QueryShape
import Stylesheet.Proofs.Tree.Covering

/-!
# The shape of documents that are read

The parts of a stylesheet are made of tokens of its text, so what is read of them has the shape of
such parts. A namespace is bound once, and a font face keeps one declaration of each descriptor.
Whatever the text was, the document can be said by a text (`parseText_isShaped`).
-/

namespace Stylesheet

open Computability Grammar Stylesheet.Tree

namespace Reading

variable {r : Reading}

section

variable {all : Tokens} (hd : DrawnFrom r.tokens all) (hg : Genuine all)
include hd hg

/-- A part was made of tokens of the text. -/
theorem sound_of_assembled {t : Tree} {kind : NodeKind} {p : Production Tree}
    (h : Assembled all t) (hk : t.kind? = some kind) (hp : partReader? kind = some p) :
    Sound r t := by
  obtain ⟨taken, htaken, hreads⟩ := h.reads hd hk hp
  exact sound_of_reads hreads (fun u hu => hd u (htaken.subset hu)) (hg.infix_of htaken) t
    List.mem_cons_self

theorem block_shaped {t block : Tree} {kind : NodeKind} (h : Assembled all t)
    (hk : t.kind? = some kind) (hp : partReader? kind = none)
    (hb : t.child? .declarationBlock = some block) :
    ∀ d ∈ (r.declarations block).result, d.value.IsShaped false := by
  obtain ⟨hm, hkb⟩ := child?_eq_some hb
  have hblock := h.child hk hp hm
  refine declarations_shaped fun u hu => ?_
  obtain ⟨hu, hku⟩ := List.mem_filter.1 hu
  exact sound_of_assembled hd hg (hblock.child hkb rfl hu) (beq_iff_eq.1 hku) rfl

theorem rule_shaped {t : Tree} (h : Assembled all t) (hk : t.kind? = some .rule)
    (options : Options) (known : List Namespace) {media : List MediaQuery}
    (hm : ∀ q ∈ media, q.IsShaped) :
    ∀ x ∈ (r.rule options known media t).result, x.IsShaped := by
  intro x hx
  unfold Reading.rule at hx
  split at hx
  · contradiction
  · rename_i list hl
    obtain ⟨hml, hkl⟩ := child?_eq_some hl
    have hlist := sound_of_assembled hd hg (h.child hk rfl hml) hkl rfl
    have hselectors := selectors_shaped hlist options known
    rw [Noted.bind_result] at hx
    split at hx
    · contradiction
    · rename_i hne
      have hfilled : (r.selectors options known list).result ≠ [] :=
        fun e => hne (List.isEmpty_iff.2 e)
      split at hx
      · cases hx
        exact ⟨hfilled, hselectors, by simp, hm⟩
      · rename_i block hb
        cases hx
        exact ⟨hfilled, hselectors, block_shaped hd hg h hk rfl hb, hm⟩

theorem rules_shaped {ts : List Tree} (h : ∀ t ∈ ts, Assembled all t) (options : Options)
    (known : List Namespace) {media : List MediaQuery} (hm : ∀ q ∈ media, q.IsShaped) :
    ∀ x ∈ (r.rules options known media ts).result, x.IsShaped := by
  induction ts with
  | nil => simp [rules]
  | cons t ts ih =>
    obtain ⟨ht, hts⟩ := List.forall_mem_cons.1 h
    intro x hx
    rw [rules] at hx
    split at hx
    · rename_i hk
      rcases List.mem_append.1 hx with hx | hx
      · exact rule_shaped hd hg ht hk options known hm x (Option.mem_toList.1 hx)
      · exact ih hts x hx
    · exact ih hts x hx
    · exact ih hts x hx

theorem mediaQueries_shaped {t : Tree} (h : Assembled all t) (hk : t.kind? = some .mediaRule) :
    ∀ q ∈ (r.mediaQueries t).result, q.IsShaped := by
  unfold Reading.mediaQueries
  split
  · simp
  · rename_i list hl
    obtain ⟨hml, hkl⟩ := child?_eq_some hl
    have hlist := h.child hk rfl hml
    rw [Noted.collect_result]
    intro q hq
    obtain ⟨u, hu, rfl⟩ := List.mem_map.1 hq
    obtain ⟨hmu, hku⟩ := List.mem_filter.1 hu
    have hpart := hlist.child hkl rfl hmu
    obtain ⟨s, rest, hs, hsource⟩ := hpart.source (beq_iff_eq.1 hku) rfl
    exact mediaQuery_shaped (hd.of_suffix hs) hsource
      (sound_of_assembled hd hg hpart (beq_iff_eq.1 hku) rfl)

end

/-- A replaced descriptor is of the same property. -/
theorem replaceDescriptor_names (d : Declaration) (kept : List Declaration) :
    (replaceDescriptor d kept).map (fun e => foldProperty e.name) =
      kept.map fun e => foldProperty e.name := by
  induction kept with
  | nil => rfl
  | cons e kept ih =>
    rw [replaceDescriptor]
    split
    · rename_i he
      have hn : foldProperty e.name = foldProperty d.name := beq_iff_eq.1 he
      rw [List.map_cons, List.map_cons, hn]
    · rw [List.map_cons, List.map_cons, ih]

/-- No descriptor is kept twice. -/
theorem descriptors_nodup (kept ds : List Declaration)
    (hk : (kept.map fun e => foldProperty e.name).Nodup) :
    ((r.descriptors kept ds).result.map fun e => foldProperty e.name).Nodup := by
  induction ds generalizing kept with
  | nil => exact hk
  | cons d ds ih =>
    rw [descriptors]
    split
    · exact ih (replaceDescriptor d kept) (by rwa [replaceDescriptor_names])
    · rename_i hany
      refine ih (kept ++ [d]) ?_
      rw [List.map_append, List.nodup_append]
      refine ⟨hk, by simp, fun a ha b hb e => hany ?_⟩
      obtain ⟨k, hkm, rfl⟩ := List.mem_map.1 ha
      rw [List.mem_singleton.1 hb] at e
      exact List.any_eq_true.2 ⟨k, hkm, beq_iff_eq.2 e⟩

/-- What statements add to a document has the shape of its parts; what they bind was not bound
    before. -/
structure ShapedDraft (known : List Namespace) (d : Draft) : Prop where
  namespaces : ((known ++ d.namespaces).map Namespace.key).Nodup
  fontFaces : ∀ f ∈ d.fontFaces, f.IsShaped
  rules : ∀ x ∈ d.rules, x.IsShaped

section

variable {all : Tokens} (hd : DrawnFrom r.tokens all) (hg : Genuine all)
include hd hg

theorem fontFace_shaped {t : Tree} (h : Assembled all t) (hk : t.kind? = some .fontFaceRule) :
    (r.fontFace t).result.IsShaped := by
  have hdeclarations : ∀ ds : List Declaration, (∀ d ∈ ds, d.value.IsShaped false) →
      FontFace.IsShaped ⟨(r.descriptors [] ds).result, r.spanOf t⟩ := by
    intro ds hds
    refine ⟨fun v hv => ?_, descriptors_nodup [] ds List.nodup_nil⟩
    obtain ⟨d, hdm, rfl⟩ := List.mem_map.1 hv
    exact hds d ((mem_descriptors hdm).resolve_left List.not_mem_nil)
  rw [fontFace]
  split
  · exact hdeclarations [] (by simp)
  · rename_i block hb
    exact hdeclarations _ (block_shaped hd hg h hk rfl hb)

theorem statement_shaped {t : Tree} (h : Assembled all t) (options : Options)
    {known : List Namespace} (hn : (known.map Namespace.key).Nodup) :
    ShapedDraft known (r.statement options known t) := by
  have hnone : ((known ++ []).map Namespace.key).Nodup := by rwa [List.append_nil]
  unfold Reading.statement
  split
  · rw [namespaceRule]
    split
    · exact ⟨hnone, by simp, by simp⟩
    · dsimp only
      split
      · exact ⟨hnone, by simp, by simp⟩
      · rename_i hfind
        refine ⟨?_, by simp, by simp⟩
        rw [List.map_append, List.nodup_append]
        refine ⟨hn, by simp, fun a ha b hb e => hfind ?_⟩
        obtain ⟨m, hm, rfl⟩ := List.mem_map.1 ha
        rw [List.mem_singleton.1 hb] at e
        exact List.find?_isSome.2 ⟨m, hm, beq_iff_eq.2 e⟩
  · rename_i hk
    exact ⟨hnone, List.forall_mem_singleton.2 (fontFace_shaped hd hg h hk), by simp⟩
  · rename_i hk
    refine ⟨hnone, by simp, ?_⟩
    refine rules_shaped hd hg (fun u hu => ?_) options known (mediaQueries_shaped hd hg h hk)
    exact h.child hk rfl (List.mem_filter.1 hu).1
  · exact ⟨hnone, by simp, rules_shaped hd hg (List.forall_mem_singleton.2 h) options known (by simp)⟩
  · exact ⟨hnone, by simp, rules_shaped hd hg (List.forall_mem_singleton.2 h) options known (by simp)⟩
  · exact ⟨hnone, by simp, by simp⟩

theorem statements_shaped {ts : List Tree} (h : ∀ t ∈ ts, Assembled all t) (options : Options)
    {known : List Namespace} (hn : (known.map Namespace.key).Nodup) :
    ShapedDraft known (r.statements options known ts) := by
  induction ts generalizing known with
  | nil => exact ⟨by rwa [statements, List.append_nil], by simp [statements], by simp [statements]⟩
  | cons t ts ih =>
    obtain ⟨ht, hts⟩ := List.forall_mem_cons.1 h
    have hfirst := statement_shaped hd hg ht options hn
    have hrest := ih hts hfirst.namespaces
    rw [statements]
    refine ⟨?_, fun f hf => ?_, fun x hx => ?_⟩
    · have := hrest.namespaces
      rwa [List.append_assoc] at this
    · exact (List.mem_append.1 hf).elim (hfirst.fontFaces f) (hrest.fontFaces f)
    · exact (List.mem_append.1 hx).elim (hfirst.rules x) (hrest.rules x)

end

end Reading

/-- Whatever a text says, its document has a shape that a text can say. -/
theorem parseText_isShaped {source text : String} {options : Options} {d : Document}
    (h : (parseText source text options).document = some d) : d.IsShaped := by
  cases ht : (tokenize source text.toList options).tooDeep with
  | some e =>
    rw [(parseText_tooDeep ht).1] at h
    contradiction
  | none =>
    rw [(parseText_document ht).1] at h
    cases h
    generalize htokens : (tokenize source text.toList options).tokens = tokens
    have hg : Genuine (numbered tokens) := htokens ▸ genuine_tokenize ht
    have hd : DrawnFrom tokens (numbered tokens) := numbered_drawnFrom tokens
    have hassembled : ∀ t ∈ (parseTokens source tokens).tree.nodes, Assembled (numbered tokens) t :=
      fun t hm => statements_assembled (setting source tokens) hd (List.suffix_refl _) t
        (List.mem_filter.1 hm).1
    have hnone : (([] : List Namespace).map Namespace.key).Nodup := List.nodup_nil
    have hdraft := Reading.statements_shaped (r := ⟨source, tokens⟩) hd hg hassembled options hnone
    exact ⟨hdraft.namespaces, hdraft.fontFaces, hdraft.rules⟩

end Stylesheet
