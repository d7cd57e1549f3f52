import Stylesheet.Proofs.Written.QueryTree

/-!
# The trees of rendered documents

The tokens of a written statement are accepted without a problem up to its last one, and what the
tree adds to a document is what the statement says (`Says`). The statements of a document follow each other with
blanks between them, so a rendered document is read as its entries (`statements_written`).
-/

namespace Stylesheet

namespace Entry

def binding? : Entry → Option Namespace
  | .binding n => some n
  | _ => none

def face? : Entry → Option FontFace
  | .face f => some f
  | _ => none

def rule? : Entry → Option Rule
  | .rule r => some r
  | _ => none

end Entry

/-- A draft holds what statements say, places and looked-up addresses aside. -/
structure Says (d : Draft) (es : List Entry) : Prop where
  namespaces : d.namespaces.map Namespace.bare = (es.filterMap Entry.binding?).map Namespace.bare
  fontFaces : d.fontFaces.map FontFace.bare = (es.filterMap Entry.face?).map FontFace.bare
  rules : d.rules.map Rule.bare = (es.filterMap Entry.rule?).map Rule.bare

theorem Says.append {a b : Draft} {es fs : List Entry} (ha : Says a es) (hb : Says b fs) :
    Says (a ++ b) (es ++ fs) := by
  refine ⟨?_, ?_, ?_⟩ <;> rw [List.filterMap_append, List.map_append]
  · exact List.map_append.trans (congrArg₂ _ ha.namespaces hb.namespaces)
  · exact List.map_append.trans (congrArg₂ _ ha.fontFaces hb.fontFaces)
  · exact List.map_append.trans (congrArg₂ _ ha.rules hb.rules)

namespace Grammar

open Production Reading Tokens

variable {r : Reading} {ts rest : Tokens}

/-! ## Declarations -/

/-- What stands between the value of a declaration and its semicolon. -/
theorem declaration_ending (rest : Tokens) {important : Bool} {s : Placed}
    (h : r.HasAll ts (if important then [.whitespace, .important] else []))
    (hs : s.kind = .semicolon) :
    ∃ i : Option Placed, Tokens.skipBlank (ts ++ s :: rest) = i.toList ++ s :: rest ∧
      i.isSome = important ∧ ∀ t ∈ i, r.Has t .important := by
  cases important with
  | false =>
    obtain rfl := HasAll.eq_nil h
    exact ⟨none, skipBlank_cons (by simp [hs]) _, rfl, nofun⟩
  | true =>
    obtain ⟨w, us, rfl, hw, hus⟩ := HasAll.cons h
    obtain ⟨i, rfl, hi⟩ := HasAll.singleton hus
    refine ⟨some i, ?_, rfl, fun j hj => by cases hj; exact hi⟩
    show Tokens.skipBlank (w :: i :: s :: rest) = i :: s :: rest
    rw [skipBlank_blank hw.kind, skipBlank_cons (by simp [hi.kind])]

theorem declarationEnd_semicolon {s : Placed} (hs : s.kind = .semicolon) :
    declarationEnd (s :: rest) = .accepted [s.leaf] rest := by
  simp [declarationEnd, take?_cons, hs]

/-- The tree of a declaration with its semicolon. -/
def declarationTree (n c s : Placed) (value : Tree) (i : Option Placed) : Tree :=
  .node .declaration n.index
    (n.leaf :: c.leaf :: value :: ((i.map Placed.leaf).toList ++ [s.leaf]))

/-- A declaration is accepted if its value is and only the end of it stands behind the value. -/
theorem declaration_accepted_of_value {n c s : Placed} {i : Option Placed} {front : Tokens}
    {tree : Tree} (hn : n.kind.isIdent = true) (hc : c.kind = .colon)
    (hi : ∀ t ∈ i, t.kind = .important) (hs : s.kind = .semicolon)
    (hahead : (skipBlank front).isEmpty = false ∧ (skipBlank front).startsWith endsEmpty = false)
    (hvalue : value false (skipBlank front) = .accepted tree (i.toList ++ s :: rest)) :
    declaration (n :: c :: front) = .accepted (declarationTree n c s tree i) rest := by
  have hcolon : skipBlank (c :: front) = c :: front := skipBlank_cons (by simp [hc]) front
  have hlast : skipBlank (s :: rest) = s :: rest := skipBlank_cons (by simp [hs]) rest
  have hend : skipBlank (i.toList ++ s :: rest) = i.toList ++ s :: rest ∧
      take? (· == .important) (i.toList ++ s :: rest) =
        .accepted (i.map Placed.leaf) (s :: rest) := by
    cases i with
    | none => exact ⟨hlast, by simp [take?_cons, hs]⟩
    | some i =>
      have hk := hi i rfl
      exact ⟨skipBlank_cons (by simp [hk]) _, by simp [take?_cons, hk]⟩
  simp only [declaration, bind_apply, ahead_apply, take_cons, hn, ↓reduceIte, blank_apply, hcolon, hc,
    beq_self_eq_true, valueAhead, hahead, Bool.or_self, Bool.false_eq_true, hvalue, hend, hlast,
    declarationEnd_semicolon hs, pure_apply]
  rfl

/-- What a declaration is read as. -/
theorem declarationTree_result {n c s : Placed} {i : Option Placed} {name : String} {tree : Tree}
    {v : Value} (hn : r.Has n (.ident name)) (hc : r.Has c .colon)
    (hi : ∀ t ∈ i, r.Has t .important) (hs : r.Has s .semicolon) (hkind : tree.kind? = some .value)
    (hread : (r.value tree).result = some v) :
    (r.declaration (declarationTree n c s tree i)).result =
      some ⟨name, v, i.isSome, r.spanOf (declarationTree n c s tree i)⟩ := by
  have hname : r.ident? (declarationTree n c s tree i).first = some name := hn.ident?
  have hchild : (declarationTree n c s tree i).child? .value = some tree := by
    simp [declarationTree, Tree.child?, Tree.children, kind?_leaf, hkind]
  have hflag : ((declarationTree n c s tree i).tokens.any fun index =>
      r.kind? index == some .important) = i.isSome := by
    cases tree with
    | leaf => contradiction
    | node =>
      cases i with
      | none =>
        simp [declarationTree, Tree.tokens, Tree.children, Tree.index?, Placed.leaf, hn.kind?,
          hc.kind?, hs.kind?]
      | some i =>
        simp [declarationTree, Tree.tokens, Tree.children, Tree.index?, Placed.leaf, hn.kind?,
          hc.kind?, (hi i rfl).kind?]
  simp only [Reading.declaration, hname, hchild, Noted.bind_result, hread, Noted.pure_result,
    Option.map_some, hflag]

/-- A declaration with its semicolon. -/
theorem declaration_written (rest : Tokens) {d : Declaration} (hs : d.value.IsShaped false)
    (h : r.HasAll ts (d.kinds ++ [.semicolon])) :
    ∃ tree, declaration (ts ++ rest) = .accepted tree rest ∧ tree.kind? = some .declaration ∧
      (r.declaration tree).result.map Declaration.bare = some d.bare := by
  obtain ⟨us, ss, rfl, hus, hss⟩ := h.append
  obtain ⟨s, rfl, hsemi⟩ := hss.singleton
  obtain ⟨n, us, rfl, hn, hus⟩ := hus.cons
  obtain ⟨c, us, rfl, hc, hus⟩ := hus.cons
  obtain ⟨b, us, rfl, hb, hus⟩ := hus.cons
  obtain ⟨vs, is, rfl, hvs, his⟩ := hus.append
  obtain ⟨i, hbehind, hi, himportant⟩ := declaration_ending rest his hsemi.kind
  have hend : EndsRow (is ++ s :: rest) := by
    cases i with
    | none => exact ⟨s, rest, hbehind, Or.inr (Or.inl hsemi.kind)⟩
    | some i => exact ⟨i, s :: rest, hbehind, Or.inr (Or.inr (himportant i rfl).kind)⟩
  obtain ⟨tree, hvalue, hkind, hread⟩ := value_written hs hvs hend
  have hfront : skipBlank (b :: (vs ++ (is ++ s :: rest))) = vs ++ (is ++ s :: rest) := by
    rw [skipBlank_blank hb.kind, skipBlank_value hs hvs]
  have hahead : (vs ++ (is ++ s :: rest)).isEmpty = false ∧
      startsWith (vs ++ (is ++ s :: rest)) endsEmpty = false := by
    obtain ⟨t, vs, rfl, ht⟩ := exists_cons_of_kinds hs hvs.kinds
    refine ⟨rfl, ?_⟩
    show endsEmpty t.kind = false
    cases hk : t.kind <;> rw [hk] at ht <;> first | rfl | contradiction
  refine ⟨declarationTree n c s tree i, ?_, rfl, ?_⟩
  · rw [hbehind] at hvalue
    rw [← hfront] at hahead hvalue
    have haccepted := declaration_accepted_of_value (by rw [hn.kind]; rfl) hc.kind
      (fun t ht => (himportant t ht).kind) hsemi.kind hahead hvalue
    simpa using haccepted
  · rw [declarationTree_result hn hc himportant hsemi hkind hread, hi]
    rfl

/-- The declarations of a block up to its closing brace. -/
theorem declarations_written (rest : Tokens) (st : Setting) {ds : List Declaration}
    (hs : ∀ d ∈ ds, d.value.IsShaped false)
    (h : r.HasAll ts ((ds.flatMap (fun d => .whitespace :: (d.kinds ++ [.semicolon])) ++
      [.whitespace]) ++ [.closing .brace])) :
    ∃ trees, declarations st (ts ++ rest) = ⟨trees, [], rest⟩ ∧
      (trees.filter (·.kind? == some .declaration)).map
        (fun t => (r.declaration t).result.map Declaration.bare) = ds.map fun d => some d.bare := by
  induction ds generalizing ts with
  | nil =>
    obtain ⟨b, us, rfl, hb, hus⟩ := HasAll.cons h
    obtain ⟨j, rfl, hj⟩ := HasAll.singleton hus
    refine ⟨[j.leaf], ?_, rfl⟩
    show declarations st (b :: j :: rest) = _
    rw [declarations_eq, skipBlank_blank hb.kind, skipBlank_cons (by simp [hj.kind])]
    simp [hj.kind]
  | cons d ds ih =>
    obtain ⟨hd, hds⟩ := List.forall_mem_cons.1 hs
    rw [List.flatMap_cons, List.append_assoc, List.append_assoc] at h
    obtain ⟨us, vs, rfl, hus, hvs⟩ := h.append
    rw [← List.append_assoc] at hvs
    obtain ⟨b, us, rfl, hb, hus⟩ := HasAll.cons hus
    obtain ⟨trees, hmore, hreads⟩ := ih hds hvs
    obtain ⟨tree, hdecl, hkind, hread⟩ := declaration_written (vs ++ rest) hd hus
    obtain ⟨n, us, rfl, hn, -⟩ := HasAll.cons hus
    refine ⟨tree :: trees, ?_, ?_⟩
    · have hfront : Tokens.skipBlank (b :: n :: us ++ vs ++ rest) = n :: (us ++ (vs ++ rest)) := by
        rw [List.append_assoc]
        exact (skipBlank_blank hb.kind _).trans (skipBlank_cons (by simp [hn.kind]) _)
      rw [List.cons_append] at hdecl
      rw [declarations_eq, hfront]
      simp only [hn.kind, reduceCtorEq, ↓reduceIte, hdecl, hmore]
      rfl
    · simp [hkind, hread, hreads]

/-- A block, from its opening brace on. -/
theorem declarationBlock_written (rest : Tokens) (st : Setting) {ds : List Declaration}
    (hs : ∀ d ∈ ds, d.value.IsShaped false) (h : r.HasAll ts (Declaration.blockKinds ds)) :
    ∃ brace behind, ts = brace :: behind ∧ brace.kind = .opening .brace ∧
      ∃ tree, declarationBlock st brace.leaf (behind ++ rest) = ⟨tree, [], rest⟩ ∧
        tree.kind? = some .declarationBlock ∧
        (r.declarations tree).result.map Declaration.bare = ds.map Declaration.bare := by
  obtain ⟨brace, behind, rfl, hbrace, hbehind⟩ := HasAll.cons h
  obtain ⟨trees, hall, hreads⟩ := declarations_written rest st hs hbehind
  refine ⟨brace, behind, rfl, hbrace.kind, .node .declarationBlock brace.index (brace.leaf :: trees),
    ?_, rfl, ?_⟩
  · rw [declarationBlock, hall]
    rfl
  · rw [Reading.declarations, Noted.collect?_result, List.map_filterMap]
    refine filterMap_of_map ?_
    simpa [Tree.nodesOf, Tree.children, kind?_leaf] using hreads

/-! ## Rules -/

/-- A style rule, outside any block or inside the block of its queries. -/
theorem rule_written (rest : Tokens) (st : Setting) {x : Rule} (hp : x.isPlain = true)
    (hs : x.IsShaped) (h : r.HasAll ts x.styleKinds) :
    (∃ t us, ts = t :: us ∧ startsCompound t.kind = true) ∧
    ∃ tree, rule st (ts ++ rest) = ⟨(tree, false), [], rest⟩ ∧ tree.kind? = some .rule ∧
      ∀ options known, (r.rule options known x.media tree).result.map Rule.bare = some x.bare := by
  simp only [Rule.isPlain, Bool.and_eq_true] at hp
  have hselectors : ∀ s ∈ x.selectors, s.isPlain = true ∧ s.IsShaped := fun s hm =>
    ⟨List.all_eq_true.1 hp.1.1 s hm, hs.selectors s hm⟩
  obtain ⟨us, vs, rfl, hus, hvs⟩ := h.append
  obtain ⟨b, vs, rfl, hb, hvs⟩ := hvs.cons
  obtain ⟨brace, behind, rfl, hbrace, block, hblock, hbk, hdeclarations⟩ :=
    declarationBlock_written rest st hs.declarations hvs
  have hends : EndsPrelude brace (behind ++ rest) (b :: brace :: (behind ++ rest)) :=
    ⟨b, rfl, hb.kind, hbrace⟩
  obtain ⟨list, hprelude, hlk, hread⟩ := rulePrelude_written hs.filled hselectors hus hends
  refine ⟨?_, .node .rule list.first [list, block], ?_, rfl, fun options known => ?_⟩
  · obtain ⟨s, ss, e⟩ := List.exists_cons_of_ne_nil hs.filled
    rw [e] at hus
    obtain ⟨as, bs, rfl, has, -⟩ := hus.append
    obtain ⟨t, as, rfl, ht⟩ := exists_startsSelector (hs.selectors s (e ▸ List.mem_cons_self)) has
    exact ⟨t, _, rfl, ht⟩
  · simp only [List.append_assoc, List.cons_append, rule, hprelude, hblock]
    rfl
  · generalize ht : Tree.node .rule list.first [list, block] = t
    have hlist : t.child? .selectorList = some list := by
      simp [← ht, Tree.child?, Tree.children, hlk]
    have hchild : t.child? .declarationBlock = some block := by
      simp [← ht, Tree.child?, Tree.children, hlk, hbk]
    have hne : (r.selectors options known list).result.isEmpty = false := by
      cases hr : (r.selectors options known list).result with
      | nil =>
        have := hread options known
        rw [hr] at this
        exact absurd (List.map_eq_nil_iff.1 this.symm) hs.filled
      | cons => rfl
    simp only [Reading.rule, hlist, hchild, Noted.bind_result, hne, Bool.false_eq_true, ↓reduceIte,
      Noted.pure_result, Option.map_some, Rule.bare, hread options known, hdeclarations]

theorem startsCompound_statement {k : TokenKind} (h : startsCompound k = true) :
    k ≠ .closing .brace ∧ k ≠ .semicolon ∧ keyword? k = none := by
  cases k with
  | closing | semicolon | atKeyword => contradiction
  | _ => exact ⟨nofun, nofun, rfl⟩

/-- The block of a media rule with its one style rule, behind the opening brace. -/
theorem mediaBlock_written (rest : Tokens) (st : Setting) {x : Rule} (hp : x.isPlain = true)
    (hs : x.IsShaped)
    (h : r.HasAll ts ((.whitespace :: (x.styleKinds ++ [.whitespace])) ++ [.closing .brace])) :
    ∃ (tree : Tree) (j : Placed), mediaBlock st (ts ++ rest) = ⟨[tree, j.leaf], [], rest⟩ ∧
      tree.kind? = some .rule ∧
      ∀ options known, (r.rule options known x.media tree).result.map Rule.bare = some x.bare := by
  obtain ⟨bs, js, rfl, hbs, hjs⟩ := h.append
  obtain ⟨j, rfl, hj⟩ := hjs.singleton
  obtain ⟨b, ss, rfl, hb, hss⟩ := hbs.cons
  obtain ⟨us, cs, rfl, hus, hcs⟩ := hss.append
  obtain ⟨c, rfl, hc⟩ := hcs.singleton
  obtain ⟨⟨t, us, rfl, ht⟩, tree, hrule, hkind, hread⟩ :=
    rule_written (c :: j :: rest) st hp hs hus
  obtain ⟨hbrace, hsemicolon, hkeyword⟩ := startsCompound_statement ht
  have hend : mediaBlock st (c :: j :: rest) = ⟨[j.leaf], [], rest⟩ := by
    rw [mediaBlock_eq, skipBlank_blank hc.kind, skipBlank_cons (by simp [hj.kind])]
    simp [hj.kind]
  have hfront : Tokens.skipBlank (b :: (t :: us ++ [c]) ++ [j] ++ rest) =
      t :: (us ++ c :: j :: rest) := by
    simp only [List.cons_append, List.append_assoc, List.nil_append]
    exact (skipBlank_blank hb.kind _).trans (skipBlank_cons (startsCompound_ne ht).1 _)
  refine ⟨tree, j, ?_, hkind, hread⟩
  rw [List.cons_append] at hrule
  rw [mediaBlock_eq, hfront]
  simp only [hbrace, hkeyword, hsemicolon, Option.isSome_none, Bool.false_eq_true, ↓reduceIte, hrule,
    hend]
  rfl

/-- The rules of a media rule with one style rule. -/
theorem rules_media {options : Options} {known : List Namespace} {x : Rule} {qs tree : Tree}
    {k b j : Placed} (place : Nat) (hq : qs.kind? = some .mediaQueryList)
    (hqs : (qs.nodesOf .mediaQuery).map (fun t => (r.mediaQuery t).result) = x.media)
    (hk : tree.kind? = some .rule)
    (hr : (r.rule options known x.media tree).result.map Rule.bare = some x.bare) :
    ((r.mediaRule options known
      (.node .mediaRule place [k.leaf, qs, b.leaf, tree, j.leaf])).result.map Rule.bare) =
        [x.bare] := by
  generalize ht : Tree.node .mediaRule place [k.leaf, qs, b.leaf, tree, j.leaf] = t
  have hchild : t.child? .mediaQueryList = some qs := by
    simp [← ht, Tree.child?, Tree.children, kind?_leaf, hq]
  have hmedia : (r.mediaQueries t).result = x.media := by
    rw [Reading.mediaQueries, hchild]
    dsimp only
    rw [Noted.collect_result, hqs]
  have hnodes : t.nodes = [qs, tree] := by
    rw [← ht]
    cases qs with
    | leaf => contradiction
    | node =>
      cases tree with
      | leaf => contradiction
      | node => rfl
  obtain ⟨y, hy, hbare⟩ := Option.map_eq_some_iff.1 hr
  rw [Reading.mediaRule, Noted.bind_result, hmedia, hnodes]
  simp only [Reading.rules, hq, hk, Noted.bind_result, hy, Noted.pure_result, Option.toList,
    List.singleton_append, List.map_cons, List.map_nil, hbare]

/-! ## Font faces and namespaces -/

/-- Where no descriptor stands twice, all are kept as they stand. -/
theorem descriptors_distinct (kept ds : List Declaration)
    (h : ((kept ++ ds).map fun d => foldProperty d.name).Nodup) :
    (r.descriptors kept ds).result = kept ++ ds := by
  induction ds generalizing kept with
  | nil => rw [List.append_nil]; rfl
  | cons d ds ih =>
    have hnew : (kept.any fun e => e.isOf d.name) = false := by
      rw [List.any_eq_false]
      intro e he hof
      have hsame : foldProperty e.name = foldProperty d.name := beq_iff_eq.1 hof
      rw [List.map_append, List.nodup_append] at h
      exact h.2.2 _ (List.mem_map_of_mem he) _ (List.mem_map_of_mem List.mem_cons_self) hsame
    rw [descriptors, hnew, if_neg Bool.false_ne_true, ih (kept ++ [d]) (by simpa using h)]
    simp

theorem fontFace_bare {f : FontFace} (hs : f.IsShaped) {place : Nat} {k : Placed} {block : Tree}
    (hk : block.kind? = some .declarationBlock)
    (h : (r.declarations block).result.map Declaration.bare = f.descriptors.map Declaration.bare) :
    (r.fontFace (.node .fontFaceRule place [k.leaf, block])).result.bare = f.bare := by
  generalize ht : Tree.node .fontFaceRule place [k.leaf, block] = t
  have hchild : t.child? .declarationBlock = some block := by
    simp [← ht, Tree.child?, Tree.children, kind?_leaf, hk]
  have names (ds : List Declaration) : ds.map (fun d => foldProperty d.name) =
      (ds.map Declaration.bare).map fun d => foldProperty d.name := by rw [List.map_map]; rfl
  have hdistinct : ((r.declarations block).result.map fun d => foldProperty d.name).Nodup := by
    rw [names, h, ← names]
    exact hs.distinct
  have hkept := descriptors_distinct (r := r) [] (r.declarations block).result hdistinct
  simp only [Reading.fontFace, hchild, Noted.bind_result, Noted.pure_result, hkept, List.nil_append,
    FontFace.bare, h]

/-- The trees of a namespace rule behind its keyword: prefix, address and semicolon. -/
def namespaceTrees (p : Option Placed) (a s : Placed) : List Tree :=
  (p.map fun t => single .namespacePrefix t.leaf).toList ++ [a.leaf, s.leaf]

/-- A namespace rule behind its keyword. -/
theorem namespaceContent_written (rest : Tokens) {n : Namespace}
    (h : r.HasAll ts (.whitespace :: ((n.nsPrefix.map fun p => [.ident p, .whitespace]).getD [] ++
      [.string n.address, .semicolon]))) :
    ∃ (p : Option Placed) (a s : Placed),
      namespaceContent (ts ++ rest) = .accepted (namespaceTrees p a s, none) rest ∧
      p.bind (fun t => r.ident? t.index) = n.nsPrefix ∧ r.kind? a.index = some (.string n.address) := by
  obtain ⟨b, us, rfl, hb, hus⟩ := HasAll.cons h
  obtain ⟨ps, vs, rfl, hps, hvs⟩ := hus.append
  obtain ⟨a, vs, rfl, ha, hvs⟩ := hvs.cons
  obtain ⟨s, rfl, hs⟩ := hvs.singleton
  have haddress : Tokens.skipBlank (a :: s :: rest) = a :: s :: rest :=
    skipBlank_cons (by simp [ha.kind]) _
  have hsemi : Tokens.skipBlank (s :: rest) = s :: rest := skipBlank_cons (by simp [hs.kind]) _
  have hstring : isAddress a.kind = true ∧ a.kind.isIdent = false := by
    rw [ha.kind]
    exact ⟨rfl, rfl⟩
  cases hp : n.nsPrefix with
  | none =>
    rw [hp] at hps
    obtain rfl := HasAll.eq_nil hps
    have hfront : Tokens.skipBlank (b :: a :: s :: rest) = a :: s :: rest := by
      rw [skipBlank_blank hb.kind, haddress]
    refine ⟨none, a, s, ?_, rfl, ha.kind?⟩
    simp [namespaceContent, namespaceTrees, hfront, take?_cons, take_cons, hstring, haddress, hsemi, hs.kind]
  | some p =>
    rw [hp] at hps
    obtain ⟨t, ps, rfl, ht, hps⟩ := HasAll.cons hps
    obtain ⟨c, rfl, hc⟩ := HasAll.singleton hps
    have hfront : Tokens.skipBlank (b :: t :: c :: a :: s :: rest) = t :: c :: a :: s :: rest := by
      rw [skipBlank_blank hb.kind, skipBlank_cons (by simp [ht.kind])]
    have hbehind : Tokens.skipBlank (c :: a :: s :: rest) = a :: s :: rest := by
      rw [skipBlank_blank hc.kind, haddress]
    refine ⟨some t, a, s, ?_, ht.ident?, ha.kind?⟩
    simp [namespaceContent, namespaceTrees, hfront, hbehind, take?_cons, take_cons, hstring, hsemi,
      hs.kind, ht.kind, TokenKind.isIdent]

/-! ## Statements -/

/-- A statement that binds a prefix, where nothing bound it before. -/
theorem namespaceRule_bare {n : Namespace} {place : Nat} {k a s : Placed} {p : Option Placed}
    {name : String} (hk : r.kind? k.index = some (.atKeyword name))
    (hp : p.bind (fun t => r.ident? t.index) = n.nsPrefix)
    (ha : r.kind? a.index = some (.string n.address)) {known : List Namespace}
    (hn : Namespace.find? known n.key = none) :
    Says (r.namespaceRule known (.node .namespaceRule place (k.leaf :: namespaceTrees p a s)))
      [.binding n] := by
  generalize ht : Tree.node .namespaceRule place (k.leaf :: namespaceTrees p a s) = t
  have htokens : t.tokens = [k.index, a.index, s.index] := by
    rw [← ht]
    cases p <;> rfl
  have haddress : t.tokens.findSome? r.address? = some n.address := by
    simp [htokens, address?, hk, ha]
  have hbound : r.boundPrefix? t = n.nsPrefix := by
    rw [← ht, ← hp]
    cases p <;> rfl
  have hkey : Namespace.key ⟨n.nsPrefix, n.address, r.spanOf t⟩ = n.key := rfl
  rw [Reading.namespaceRule, haddress]
  simp only [hbound, hkey, hn, Option.isSome_none, Bool.false_eq_true, ↓reduceIte]
  exact ⟨rfl, rfl, rfl⟩

/-- Tokens that are accepted as one statement without a problem, which says what an entry says. -/
def IsStatement (r : Reading) (st : Setting) (ts rest : Tokens) (e : Entry) : Prop :=
  ∃ t us, ts = t :: us ∧ t.kind ≠ .whitespace ∧
    ∃ tree, statement st t (us ++ rest) = ⟨tree, [], rest⟩ ∧ tree.isNode = true ∧
      ∀ options known, (∀ n ∈ e.binding?, Namespace.find? known n.key = none) →
        Says (r.statement options known tree) [e]

theorem binding_written (st : Setting) {n : Namespace} (h : r.HasAll ts n.kinds) :
    IsStatement r st ts rest (.binding n) := by
  obtain ⟨k, us, rfl, hk, hus⟩ := h.cons
  obtain ⟨p, a, s, hcontent, hp, ha⟩ := namespaceContent_written rest hus
  refine ⟨k, us, rfl, by simp [hk.kind], .node .namespaceRule k.index (k.leaf :: namespaceTrees p a s),
    ?_, rfl, fun options known hn => namespaceRule_bare hk.kind? hp ha (hn n rfl)⟩
  have hname : sameWord "namespace" "namespace" = true := by decide
  simp only [statement, keyword?, hk.kind, atRule, hname, ↓reduceIte, hcontent, Option.map_none,
    Option.toList]

theorem face_written (st : Setting) {f : FontFace} (hs : f.IsShaped) (h : r.HasAll ts f.kinds) :
    IsStatement r st ts rest (.face f) := by
  obtain ⟨k, us, rfl, hk, hus⟩ := h.cons
  obtain ⟨b, us, rfl, hb, hus⟩ := hus.cons
  obtain ⟨brace, behind, rfl, hbrace, block, hblock, hbk, hread⟩ := declarationBlock_written
    rest st (fun d hd => hs.values _ (List.mem_map_of_mem hd)) hus
  refine ⟨k, _, rfl, by simp [hk.kind], .node .fontFaceRule k.index [k.leaf, block], ?_, rfl,
    fun options known _ => ⟨rfl, ?_, rfl⟩⟩
  · have hn : sameWord "font-face" "namespace" = false := by decide
    have hf : sameWord "font-face" "font-face" = true := by decide
    have hfront : Tokens.skipBlank (b :: brace :: (behind ++ rest)) = brace :: (behind ++ rest) := by
      rw [skipBlank_blank hb.kind, skipBlank_cons (by simp [hbrace])]
    simp only [statement, keyword?, hk.kind, atRule, hn, hf, Bool.false_eq_true, ↓reduceIte,
      List.cons_append, fontFaceBrace, bind_apply, blank_apply, hfront, take_cons, hbrace,
      beq_self_eq_true, hblock]
    rfl
  · exact congrArg (fun g => [g]) (fontFace_bare hs hbk hread)

/-- A style rule outside any block. -/
theorem style_written (st : Setting) {x : Rule} (hp : x.isPlain = true) (hs : x.IsShaped)
    (hm : x.media = []) (h : r.HasAll ts x.styleKinds) : IsStatement r st ts rest (.rule x) := by
  obtain ⟨⟨t, us, rfl, ht⟩, tree, hrule, hkind, hread⟩ := rule_written rest st hp hs h
  obtain ⟨hbrace, hsemicolon, hkeyword⟩ := startsCompound_statement ht
  refine ⟨t, us, rfl, (startsCompound_ne ht).1, tree, ?_, ?_, fun options known _ => ?_⟩
  · rw [List.cons_append] at hrule
    simp only [statement, hkeyword, hbrace, hsemicolon, or_self, ↓reduceIte, hrule]
    rfl
  · cases tree with
    | leaf => contradiction
    | node => rfl
  · have hbare := hread options known
    rw [hm] at hbare
    obtain ⟨y, hy, hyx⟩ := Option.map_eq_some_iff.1 hbare
    have hrules : (r.rules options known [] [tree]).result = [y] := by
      simp only [Reading.rules, hkind, Noted.bind_result, hy, Noted.pure_result, Option.toList,
        List.append_nil]
    simp only [Reading.statement, hkind, hrules]
    exact ⟨rfl, rfl, congrArg (fun z => [z]) hyx⟩

/-- A style rule inside the block of its queries. -/
theorem media_written (st : Setting) {x : Rule} (hp : x.isPlain = true) (hs : x.IsShaped)
    (hm : x.media ≠ []) (h : r.HasAll ts x.kinds) : IsStatement r st ts rest (.rule x) := by
  have he : x.media.isEmpty = false := by simpa using hm
  rw [Rule.kinds, he, if_neg Bool.false_ne_true] at h
  obtain ⟨k, us, rfl, hk, hus⟩ := h.cons
  obtain ⟨b, us, rfl, hb, hus⟩ := hus.cons
  obtain ⟨qs, vs, rfl, hqs, hvs⟩ := hus.append
  obtain ⟨c, vs, rfl, hc, hvs⟩ := hvs.cons
  obtain ⟨brace, behind, rfl, hbrace, hbehind⟩ := hvs.cons
  obtain ⟨tree, j, hblock, hkind, hread⟩ := mediaBlock_written rest st hp hs hbehind
  obtain ⟨queries, hprelude, hqk, hqread⟩ :=
    mediaPrelude_written hm hs.media hqs hc hbrace.kind (behind ++ rest)
  refine ⟨k, _, rfl, by simp [hk.kind],
    .node .mediaRule k.index [k.leaf, queries, brace.leaf, tree, j.leaf], ?_, rfl,
    fun options known _ => ⟨rfl, rfl, rules_media _ hqk hqread hkind (hread options known)⟩⟩
  have hn : sameWord "media" "namespace" = false := by decide
  have hf : sameWord "media" "font-face" = false := by decide
  have hmedia : sameWord "media" "media" = true := by decide
  have hfront : Tokens.skipBlank (b :: (qs ++ c :: brace :: behind) ++ rest) =
      Tokens.skipBlank (qs ++ c :: brace :: (behind ++ rest)) := by
    rw [List.cons_append, skipBlank_blank hb.kind, List.append_assoc]
    rfl
  simp only [statement, keyword?, hk.kind, atRule, hn, hf, hmedia, Bool.false_eq_true, ↓reduceIte,
    hfront, hprelude, hblock]
  rfl

/-- A statement is accepted without a problem, and says what it was written for. -/
theorem entry_written (rest : Tokens) (st : Setting) {e : Entry} (he : e.IsReadable) (h : r.HasAll ts e.kinds) :
    IsStatement r st ts rest e := by
  cases e with
  | binding n => exact binding_written st h
  | face f => exact face_written st he.shaped h
  | rule x =>
    by_cases hm : x.media = []
    · have hk : x.kinds = x.styleKinds := by rw [Rule.kinds, hm]; rfl
      exact style_written st he.plain he.shaped hm (hk ▸ h)
    · exact media_written st he.plain he.shaped hm h

/-- No prefix is bound twice, neither by what is known nor by the statements. -/
def KeysDistinct (known : List Namespace) (es : List Entry) : Prop :=
  ((known ++ es.filterMap Entry.binding?).map Namespace.key).Nodup

theorem KeysDistinct.head {known : List Namespace} {e : Entry} {es : List Entry}
    (h : KeysDistinct known (e :: es)) : ∀ n ∈ e.binding?, Namespace.find? known n.key = none := by
  intro n hn
  rw [Namespace.find?, List.find?_eq_none]
  intro m hm hk
  rw [KeysDistinct, List.filterMap_cons, hn, List.map_append, List.nodup_append] at h
  exact h.2.2 m.key (List.mem_map_of_mem hm) n.key List.mem_cons_self (beq_iff_eq.1 hk)

/-- What a statement binds is known behind it. -/
theorem KeysDistinct.tail {known : List Namespace} {e : Entry} {es : List Entry} {d : Draft}
    (h : KeysDistinct known (e :: es)) (hd : Says d [e]) :
    KeysDistinct (known ++ d.namespaces) es := by
  have keys (ns : List Namespace) : ns.map Namespace.key = (ns.map Namespace.bare).map Namespace.key := by
    rw [List.map_map]
    rfl
  have hsame : d.namespaces.map Namespace.key = ([e].filterMap Entry.binding?).map Namespace.key := by
    rw [keys, hd.namespaces, ← keys]
  have hcons : (e :: es).filterMap Entry.binding? =
      [e].filterMap Entry.binding? ++ es.filterMap Entry.binding? := List.filterMap_append (l := [e])
  rw [KeysDistinct, hcons, List.map_append, List.map_append] at h
  rwa [KeysDistinct, List.map_append, List.map_append, hsame, List.append_assoc]

/-- Statements with blanks between and around them say what they were written for. -/
theorem statements_written (st : Setting) {ks : List TokenKind} {es : List Entry}
    (hk : SpreadKinds ks es) (he : ∀ e ∈ es, e.IsReadable) (h : r.HasAll ts ks) :
    ∃ trees, statements st ts = ⟨trees, [], []⟩ ∧ (∀ t ∈ trees, t.isNode = true) ∧
      ∀ options known, KeysDistinct known es → Says (r.statements options known trees) es := by
  induction hk generalizing ts with
  | nil =>
    obtain rfl := HasAll.eq_nil h
    exact ⟨[], by rw [statements_eq]; rfl, by simp, fun _ _ _ => ⟨rfl, rfl, rfl⟩⟩
  | blank _ ih =>
    obtain ⟨b, us, rfl, hb, hus⟩ := HasAll.cons h
    obtain ⟨trees, hall, hnodes, hsays⟩ := ih he hus
    refine ⟨trees, ?_, hnodes, hsays⟩
    rw [statements_eq, skipBlank_blank hb.kind, ← statements_eq, hall]
  | entry e _ ih =>
    obtain ⟨hfirst, hrest⟩ := List.forall_mem_cons.1 he
    obtain ⟨us, vs, rfl, hus, hvs⟩ := HasAll.append h
    obtain ⟨trees, hall, hnodes, hread⟩ := ih hrest hvs
    obtain ⟨t, us, rfl, ht, tree, hstatement, hnode, hsay⟩ :=
      entry_written vs st hfirst hus
    refine ⟨tree :: trees, ?_, List.forall_mem_cons.2 ⟨hnode, hnodes⟩, fun options known hd => ?_⟩
    · have hfront : Tokens.skipBlank (t :: us ++ vs) = t :: (us ++ vs) := skipBlank_cons ht _
      rw [statements_eq, hfront]
      dsimp only
      rw [hstatement]
      dsimp only
      rw [hall]
      rfl
    · have hhead := hsay options known hd.head
      rw [Reading.statements]
      exact hhead.append (hread options _ (hd.tail hhead))

end Grammar

end Stylesheet
