import Stylesheet.Proofs.Grammar.Resumed
import Stylesheet.Proofs.Reading.Complete
import Stylesheet.Proofs.Tree.Prefix
import Stylesheet.Proofs.Written.QueryReading

/-!
# Media rules, from the run behind the keyword to the rules of the block

The tokens between the keyword of a media rule and a brace are accepted up to that brace if and only if
they are of the language of queries, and every style rule of the block has the queries that they say
(`buildDocument_media`).
-/

namespace Stylesheet

open Grammar Production Tokens Relation

namespace Grammar

/-- What is accepted in front of a brace is what the language has. -/
theorem mediaPrelude_accepted_iff {run : Tokens} {brace : Placed} (hb : brace.kind = .opening .brace)
    (rest : Tokens) :
    (∃ list, mediaPrelude (skipBlank (run ++ brace :: rest)) = .accepted (list, brace.leaf) rest) ↔
      ∃ qs, PreludeRun run qs := by
  constructor
  · rintro ⟨list, h⟩
    obtain ⟨taken, t, qs, e, -, hrun⟩ := mediaPrelude_run h
    obtain ⟨b, hblank, he⟩ := exists_blank (run ++ brace :: rest)
    -- both end with a brace and the same tokens behind it
    have hends : run ++ [brace] ++ rest = b ++ taken ++ [t] ++ rest := by
      rw [e] at he
      simpa using he
    have hfront : run = b ++ taken := (List.append_inj' (List.append_cancel_right hends) rfl).1
    rw [hfront]
    exact ⟨qs, hrun.blank hblank⟩
  · rintro ⟨qs, h⟩
    obtain ⟨list, haccepted, -⟩ := h.accepted hb rest
    exact ⟨list, haccepted⟩

/-- Where the loop over the statements comes to, what it reads from there on ends its result. -/
theorem statements_reached {st : Setting} {s s' : Tokens}
    (h : ReflTransGen (Round st) (.statements s) (.statements s')) :
    s' <:+ s ∧ ∃ front, (statements st s).result = front ++ (statements st s').result := by
  generalize ha : LoopState.statements s = a at h
  induction h using ReflTransGen.head_induction_on generalizing s with
  | refl =>
    cases ha
    exact ⟨List.suffix_refl _, [], rfl⟩
  | head hround _ ih =>
    cases ha
    cases hround with
    | @statement _ t rest hs =>
      obtain ⟨hsuffix, front, hfront⟩ := ih rfl
      have hrest : (statement st t rest).rest <:+ s :=
        (statement_suffix st t rest).trans ((List.suffix_cons t rest).trans (suffix_of_skipBlank hs))
      refine ⟨hsuffix.trans hrest, (statement st t rest).result :: front, ?_⟩
      rw [statements_eq, hs]
      exact congrArg ((statement st t rest).result :: ·) hfront

/-- The statement that the loop comes to is one of the stylesheet. -/
theorem statement_reached {st : Setting} {s s' rest : Tokens} {t : Placed}
    (h : ReflTransGen (Round st) (.statements s) (.statements s')) (hs : skipBlank s' = t :: rest) :
    ∃ front behind, (statements st s).result = front ++ (statement st t rest).result :: behind := by
  obtain ⟨-, front, hfront⟩ := statements_reached h
  refine ⟨front, (statements st (statement st t rest).rest).result, ?_⟩
  rw [hfront, statements_eq st s', hs]
  rfl

/-- What becomes of a media rule whose queries are accepted. -/
theorem statement_media (st : Setting) {keyword : Placed} {name : String} {s rest : Tokens}
    {list brace : Tree} (hk : keyword.kind = .atKeyword name) (hm : sameWord name "media" = true)
    (h : mediaPrelude (skipBlank s) = .accepted (list, brace) rest) :
    (statement st keyword s).result =
      .node .mediaRule keyword.index (keyword.leaf :: list :: brace :: (mediaBlock st rest).result) := by
  have hkeyword : keyword? keyword.kind = some name := by rw [hk]; rfl
  have hother {other : String} (ho : foldCase other ≠ foldCase "media") :
      sameWord name other = false := by
    rw [sameWord, eq_of_beq hm]
    exact beq_eq_false_iff_ne.2 ho.symm
  rw [statement, hkeyword]
  dsimp only
  rw [atRule, hother (by decide), hother (by decide), hm, h]
  rfl

end Grammar

namespace Reading

variable {r : Reading}

theorem media_of_rule {options : Options} {known : List Namespace} {media : List MediaQuery} {t : Tree}
    {x : Rule} (h : (r.rule options known media t).result = some x) : x.media = media := by
  rw [rule] at h
  split at h
  · contradiction
  · rw [Noted.bind_result] at h
    split at h
    · contradiction
    · dsimp only at h
      split at h
      · cases h
        rfl
      · cases h
        rfl

/-- All rules of a block have the queries of the media rule. -/
theorem media_of_rules {options : Options} {known : List Namespace} {media : List MediaQuery}
    {ts : List Tree} : ∀ x ∈ (r.rules options known media ts).result, x.media = media := by
  induction ts with
  | nil => nofun
  | cons t ts ih =>
    rw [rules]
    split
    · intro x hx
      rcases List.mem_append.1 hx with hx | hx
      · exact media_of_rule (Option.mem_toList.1 hx)
      · exact ih x hx
    · exact ih
    · exact ih

/-- The rules of a media rule are those of its block, each with the queries that are written. -/
theorem mediaRule_queryForms {place : Nat} {keyword list brace : Tree} {content : List Tree}
    {qs : List QueryForm}
    (hd : Derived r.tokens (.node .mediaRule place (keyword :: list :: brace :: content)))
    (hkeyword : keyword.kind? = none) (hlist : list.kind? = some .mediaQueryList)
    (hbrace : brace.kind? = none) (hqs : ReadsQueries r list.children qs) (options : Options)
    (known : List Namespace) :
    List.Forall₂ (fun u x => x.span = r.spanOf u ∧ x.media = qs.map r.queryForm)
      (content.filter (·.kind? == some .rule))
      (r.mediaRule options known
        (.node .mediaRule place (keyword :: list :: brace :: content))).result := by
  generalize ht : Tree.node .mediaRule place (keyword :: list :: brace :: content) = t at hd
  have hk : t.kind? = some .mediaRule := by rw [← ht]; rfl
  have hrules : t.nodesOf .rule = content.filter (·.kind? == some .rule) := by
    simp [← ht, Tree.nodesOf, Tree.children, hkeyword, hlist, hbrace]
  have hqueries : (r.mediaQueries t).result = qs.map r.queryForm := by
    have hchild : t.child? .mediaQueryList = some list := by
      simp [← ht, Tree.child?, Tree.children, hkeyword, hlist]
    rw [mediaQueries, hchild]
    exact (Noted.collect_result _ _).trans hqs
  have hreads := (mediaRule_reads hd hk options known).1
  rw [Tree.statementRules, hk] at hreads
  dsimp only at hreads
  rw [hrules, List.forall₂_map_left_iff, List.forall₂_iff_zip] at hreads
  refine List.forall₂_iff_zip.2 ⟨hreads.1, fun {u x} hm => ⟨(hreads.2 hm).span, ?_⟩⟩
  rw [media_of_rules x (List.of_mem_zip hm).2, hqueries]

/-- The rules of a media rule stand among those of the statements around it. -/
theorem statements_rules_mediaRule (options : Options) (known : List Namespace) (front behind : List Tree)
    {t : Tree} (hk : t.kind? = some .mediaRule) : ∃ known' left right,
      (r.statements options known (front ++ t :: behind)).rules =
        left ++ (r.mediaRule options known' t).result ++ right := by
  have hrules (known : List Namespace) : (r.statement options known t).rules =
      (r.mediaRule options known t).result := by
    rw [statement, hk]
  rw [statements_append, statements]
  generalize r.statements options known front = before
  generalize known ++ before.namespaces = known'
  generalize r.statements options _ behind = after
  refine ⟨known', before.rules, after.rules, ?_⟩
  rw [← hrules]
  exact (List.append_assoc before.rules _ after.rules).symm

end Reading

/-- Where the parser comes to a media rule, it accepts the tokens between the keyword and a brace up to
    that brace if and only if they are of the language of queries. Then the document has one rule for each
    style rule of the block, and each has one query for each that is written, in this order, with the
    qualifier, the medium, and the names and values of the features; no value is lost. -/
theorem buildDocument_media {source : String} {tokens : List Token} {s run rest : Tokens}
    {keyword brace : Placed} {name : String}
    (hreach : ReflTransGen (Round (setting source tokens)) (.statements (numbered tokens))
      (.statements s))
    (hs : skipBlank s = keyword :: (run ++ brace :: rest)) (hk : keyword.kind = .atKeyword name)
    (hm : sameWord name "media" = true) (hb : brace.kind = .opening .brace) (options : Options) :
    let r : Reading := ⟨source, tokens⟩
    let b := buildDocument source tokens (parseTokens source tokens).tree options
    let block := (mediaBlock (setting source tokens) rest).result
    ((∃ list, mediaPrelude (skipBlank (run ++ brace :: rest)) = .accepted (list, brace.leaf) rest) ↔
        ∃ qs, PreludeRun run qs) ∧
      ∀ qs, PreludeRun run qs →
        (∀ q ∈ qs, ∀ f ∈ q.features, ∀ v ∈ f.value, (r.value v).result.isSome = true) ∧
        ∃ front rules behind, b.document.rules = front ++ rules ++ behind ∧
          List.Forall₂ (fun u x => x.span = r.spanOf u ∧ x.media = qs.map r.queryForm)
            (block.filter (·.kind? == some .rule)) rules := by
  intro r b block
  refine ⟨mediaPrelude_accepted_iff hb rest, fun qs hrun => ?_⟩
  obtain ⟨list, haccepted, hlist, hreads⟩ := hrun.accepted hb rest
  obtain ⟨front, behind, hresult⟩ := statement_reached hreach hs
  rw [statement_media _ hk hm haccepted] at hresult
  generalize hnode : Tree.node .mediaRule keyword.index
    (keyword.leaf :: list :: brace.leaf :: block) = node at hresult
  have hdrawn : DrawnFrom tokens run := by
    intro t ht
    have hmem : t ∈ skipBlank s := by
      rw [hs]
      exact List.mem_cons_of_mem _ (List.mem_append_left _ ht)
    exact numbered_drawnFrom tokens t
      ((statements_reached hreach).1.subset ((skipBlank_suffix s).subset hmem))
  have hnodes : (parseTokens source tokens).tree.nodes =
      front.filter Tree.isNode ++ node :: behind.filter Tree.isNode := by
    show (statements (setting source tokens) (numbered tokens)).result.filter Tree.isNode = _
    rw [hresult, List.filter_append, List.filter_cons_of_pos (by rw [← hnode]; rfl)]
  have hderived : Derived tokens node := by
    refine (derived_parseTokens source tokens).child ?_
    show node ∈ (statements (setting source tokens) (numbered tokens)).result
    rw [hresult]
    exact List.mem_append_right _ List.mem_cons_self
  obtain ⟨known, left, right, hrules⟩ := r.statements_rules_mediaRule options []
    (front.filter Tree.isNode) (behind.filter Tree.isNode) (t := node) (by rw [← hnode]; rfl)
  rw [← hnodes] at hrules
  refine ⟨hrun.readable hdrawn, left, _, right, hrules, ?_⟩
  rw [← hnode] at hderived ⊢
  have hheld : r.Holds run := fun t ht => (hdrawn t ht).1
  exact Reading.mediaRule_queryForms hderived rfl hlist rfl (hreads r hheld) options known

/-- ` ONLY screen and (color: red),print`, from the keyword up to the brace. -/
def queriesRow : Tokens :=
  [unwritten 1 .whitespace, unwritten 2 (.ident "ONLY"), unwritten 3 .whitespace,
    unwritten 4 (.ident "screen"), unwritten 5 .whitespace, unwritten 6 (.ident "and"),
    unwritten 7 .whitespace, unwritten 8 (.opening .paren), unwritten 9 (.ident "color"),
    unwritten 10 .colon, unwritten 11 .whitespace, unwritten 12 (.ident "red"),
    unwritten 13 (.closing .paren), unwritten 14 .comma, unwritten 15 (.ident "print")]

/-- The block behind the queries: `p \x7b \x7d \x7d`. -/
def queriedBlock : Tokens :=
  [unwritten 17 (.ident "p"), unwritten 18 (.opening .brace), unwritten 19 (.closing .brace),
    unwritten 20 (.closing .brace)]

def queriedTokens : List Token :=
  (unwritten 0 (.atKeyword "MEDIA") ::
    (queriesRow ++ unwritten 16 (.opening .brace) :: queriedBlock)).map Placed.token ++
      [⟨.eof, "", .nowhere⟩]

/-- What the run says. -/
def queriesForm : List QueryForm :=
  [⟨some .only, some "screen", [⟨"color", some (.node .value 12 [.node .term 12 [.leaf 12]])⟩]⟩,
    ⟨none, some "print", []⟩]

theorem preludeRun_queriesRow : PreludeRun queriesRow queriesForm := by
  have blank (i : Nat) : Blank [unwritten i .whitespace] := List.forall_mem_singleton.2 rfl
  have hterm : term false [unwritten 12 (.ident "red")] =
      .accepted (.node .term 12 [.leaf 12]) [] :=
    (term_plain rfl fun _ hk => by cases hk).trans (if_pos rfl)
  have hvalue : value false [unwritten 12 (.ident "red")] =
      .accepted (.node .value 12 [.node .term 12 [.leaf 12]]) [] := by
    rw [value_eq, bind_apply, hterm]
    dsimp only
    rw [bind_apply, terms_eq]
    rfl
  have hfeature : FeatureRun (unwritten 8 (.opening .paren) :: ([] ++ unwritten 9 (.ident "color") ::
      ([] ++ (unwritten 10 .colon :: ([unwritten 11 .whitespace] ++ [unwritten 12 (.ident "red")]) ++
        [unwritten 13 (.closing .paren)]))))
      ⟨"color", some (.node .value 12 [.node .term 12 [.leaf 12]])⟩ :=
    .feature rfl .nil rfl .nil (.written rfl (blank 11) hvalue .nil) rfl
  have hjoined := JoinedRun.cons (w := unwritten 6 (.ident "and")) (blank 5) (by decide) (blank 7)
    hfeature (.nil .nil)
  have hscreen := QueryRun.qualified (t := unwritten 2 (.ident "ONLY"))
    (u := unwritten 4 (.ident "screen")) (q := .only) rfl (by decide) (blank 3) rfl (by decide) hjoined
  have hprint : QueryRun [unwritten 15 (.ident "print")] ⟨none, some "print", []⟩ :=
    .medium rfl (by decide) (fun _ => rfl) (.nil .nil)
  exact .queries (.cons (c := unwritten 14 .comma) (blank 1) hscreen rfl (.last .nil hprint))

/-- The one rule of the block has both queries. -/
theorem buildDocument_media_queriedTokens :
    let st := setting "queried.css" queriedTokens
    let r : Reading := ⟨"queried.css", queriedTokens⟩
    let b := buildDocument "queried.css" queriedTokens
      (parseTokens "queried.css" queriedTokens).tree {}
    let block := (mediaBlock st queriedBlock).result
    numbered queriedTokens = unwritten 0 (.atKeyword "MEDIA") ::
        (queriesRow ++ unwritten 16 (.opening .brace) :: queriedBlock) ∧
      (block.filter (·.kind? == some .rule)).length = 1 ∧
      (∀ q ∈ queriesForm, ∀ f ∈ q.features, ∀ v ∈ f.value, (r.value v).result.isSome = true) ∧
      ∃ front rules behind, b.document.rules = front ++ rules ++ behind ∧
        List.Forall₂ (fun u x => x.span = r.spanOf u ∧ x.media = queriesForm.map r.queryForm)
          (block.filter (·.kind? == some .rule)) rules := by
  intro st r b block
  have hrow : numbered queriedTokens = unwritten 0 (.atKeyword "MEDIA") ::
      (queriesRow ++ unwritten 16 (.opening .brace) :: queriedBlock) := rfl
  have hone : (block.filter (·.kind? == some .rule)).length = 1 := by decide +kernel
  exact ⟨hrow, hone, (buildDocument_media .refl (by rw [hrow]; rfl) rfl (by decide) rfl {}).2
    queriesForm preludeRun_queriesRow⟩

end Stylesheet
