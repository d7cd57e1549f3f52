import Stylesheet.Proofs.Grammar.Faults
import Stylesheet.Proofs.Tree.Kinds
import Stylesheet.Proofs.Tree.Stop

/-!
# One problem for each recovery

The parser reports once where it gives a production up, and puts an error node there; a namespace
rule without a semicolon is kept and reported as well. Nothing else is reported in front of the end
of the input, and what is reported there is that blocks are not closed: at most a block of
declarations and the media block around it (`parseTokens_tally`).
-/

namespace Stylesheet

open Computability Grammar

namespace Tree

def isError (t : Tree) : Bool := t.kind? == some .error

/-- A namespace rule without a semicolon among its tokens. -/
def lacksSemicolon (tokens : List Token) (t : Tree) : Bool :=
  t.kind? == some .namespaceRule &&
    !t.tokens.any fun index => tokens[index]?.map Token.kind == some .semicolon

/-- A node that a problem was reported for. -/
def isFlaw (tokens : List Token) (t : Tree) : Bool := t.isError || t.lacksSemicolon tokens

theorem isFlaw_eq_false {tokens : List Token} {t : Tree} (he : t.kind? ≠ some .error)
    (hn : t.kind? ≠ some .namespaceRule) : t.isFlaw tokens = false := by
  simp [isFlaw, isError, lacksSemicolon, he, hn]

/-- No node is an error node and a namespace rule. -/
theorem countP_isFlaw (tokens : List Token) (ts : List Tree) :
    ts.countP (isFlaw tokens) = ts.countP isError + ts.countP (lacksSemicolon tokens) := by
  induction ts with
  | nil => rfl
  | cons t ts ih =>
    have hor : ¬ (t.isError = true ∧ t.lacksSemicolon tokens = true) := by
      simp only [isError, lacksSemicolon, Bool.and_eq_true, beq_iff_eq]
      rintro ⟨he, hn, -⟩
      rw [he] at hn
      contradiction
    simp only [List.countP_cons, ih, isFlaw, Bool.or_eq_true]
    split <;> split <;> split <;> simp_all <;> omega

end Tree

namespace Setting

/-- The problem of a block that the input ends in. -/
def unclosed (st : Setting) : Problem := st.problem ⟨.missingCloseBrace, none⟩

theorem problem_kind_ne (st : Setting) {f : Fault} (h : f.cause.isUnclosed = false) :
    (st.problem f).kind ≠ .missingCloseBrace := by
  change f.cause.kind ≠ _
  cases hc : f.cause <;> simp_all [Fault.Cause.kind, Fault.Cause.isUnclosed]

end Setting

namespace Grammar

open Stylesheet.Tree

/-- What was reported for a row of trees: one problem for each flaw in it, and then `n` blocks that
    are not closed. -/
def Tallies (st : Setting) (tokens : List Token) (n : Nat) (row : List Tree) (ps : List Problem) :
    Prop :=
  ∃ faults, ps = faults ++ List.replicate n st.unclosed ∧
    (∀ p ∈ faults, p.kind ≠ .missingCloseBrace) ∧ faults.length = count (isFlaw tokens) row

/-- Kinds of nodes that are never reported, with what is below them. -/
def isSound : NodeKind → Bool
  | .stylesheet | .namespaceRule | .fontFaceRule | .mediaRule | .rule | .declarationBlock
  | .error => false
  | _ => true

theorem isSound_closed (kind : NodeKind) (h : isSound kind = true) :
    (childKinds kind).all isSound = true := by
  cases kind <;> first | rfl | contradiction

section

variable {st : Setting} {tokens : List Token} {m n : Nat} {s left rest taken : Tokens}
  {row more : List Tree} {ps qs : List Problem}

/-- There is no flaw in what was accepted. -/
theorem Reads.count_isFlaw {form : Language Tree} {rs : List Recovery}
    (h : Reads tokens form taken row rs) (hc : KindRows isSound form) :
    count (isFlaw tokens) row = 0 := by
  rw [count, List.countP_eq_zero]
  intro u hu
  obtain ⟨t, ht, hu⟩ := mem_subtreesAmong.1 hu
  have hk := (h.derived t ht).kinds_below isSound_closed (hc row h.shape t ht) hu
  rw [isFlaw_eq_false (fun e => by simpa [isSound] using hk _ e)
    (fun e => by simpa [isSound] using hk _ e)]
  simp

theorem count_leaves (ts : Tokens) : count (isFlaw tokens) (ts.map Placed.leaf) = 0 := by
  induction ts with
  | nil => rfl
  | cons t ts ih =>
    rw [List.map_cons, count_cons, ih, Placed.leaf, count_leaf]
    rfl

namespace Tallies

theorem nil : Tallies st tokens 0 [] [] := ⟨[], rfl, by simp, rfl⟩

theorem unclosed : Tallies st tokens 1 [] [st.unclosed] := ⟨[], rfl, by simp, rfl⟩

/-- Nothing more was read where blocks are not closed. -/
theorem append (h : Tallies st tokens m row ps) (h' : Tallies st tokens n more qs)
    (hm : m ≠ 0 → more = []) : Tallies st tokens (m + n) (row ++ more) (ps ++ qs) := by
  obtain ⟨faults, rfl, hk, hl⟩ := h
  obtain ⟨others, rfl, hk', hl'⟩ := h'
  refine ⟨faults ++ others, ?_, ?_, ?_⟩
  · by_cases h0 : m = 0
    · rw [h0, List.replicate_zero, List.append_nil, Nat.zero_add, List.append_assoc]
    · rw [hm h0, count_nil] at hl'
      rw [List.length_eq_zero_iff.1 hl', List.append_nil, List.nil_append, List.append_assoc,
        List.replicate_append_replicate]
  · intro p hp
    rcases List.mem_append.1 hp with hp | hp
    · exact hk p hp
    · exact hk' p hp
  · rw [List.length_append, hl, hl', count_append]

theorem cons {t : Tree} (h : Tallies st tokens 0 [t] ps) (h' : Tallies st tokens n more qs) :
    Tallies st tokens n (t :: more) (ps ++ qs) :=
  Nat.zero_add n ▸ h.append h' fun h => absurd rfl h

theorem node (h : Tallies st tokens n row ps) {kind : NodeKind} (he : kind ≠ .error)
    (hn : kind ≠ .namespaceRule) (place : Nat) : Tallies st tokens n [.node kind place row] ps := by
  obtain ⟨faults, e, hk, hl⟩ := h
  refine ⟨faults, e, hk, ?_⟩
  rw [count_node, isFlaw_eq_false (by simpa [kind?]) (by simpa [kind?])]
  exact hl

theorem leaf (index : Nat) : Tallies st tokens 0 [.leaf index] [] :=
  ⟨[], rfl, by simp, by rw [count_leaf]; rfl⟩

theorem ofReads {form : Language Tree} {rs : List Recovery} (h : Reads tokens form taken row rs)
    (hc : KindRows isSound form) : Tallies st tokens 0 row [] :=
  ⟨[], rfl, by simp, (h.count_isFlaw hc).symm⟩

/-- Skipped tokens below an error node, and the fault that they were skipped for. -/
theorem broken {k : Skipped} {f : Fault} (hk : k.Keeps left) (hf : f.cause.isUnclosed = false)
    (place : Nat) : Tallies st tokens 0 [.node .error place k.leaves] [st.problem f] := by
  obtain ⟨taken, -, hl⟩ := hk
  refine ⟨[st.problem f], rfl, ?_, ?_⟩
  · intro p hp
    rw [List.mem_singleton.1 hp]
    exact st.problem_kind_ne hf
  · rw [hl, count_node, count_leaves]
    rfl

end Tallies

/-! ## Blocks -/

theorem declarations_tallies (st : Setting) (s : Tokens) (hs : DrawnFrom tokens s) :
    ∃ n ≤ 1, (n ≠ 0 → (declarations st s).rest = []) ∧
      Tallies st tokens n (declarations st s).result (declarations st s).problems := by
  have hd : DrawnFrom tokens (Tokens.skipBlank s) := hs.skipBlank
  fun_induction declarations st s with
  | case1 => exact ⟨1, Nat.le_refl 1, fun _ => rfl, .unclosed⟩
  | case2 s _ t rest => exact ⟨0, Nat.zero_le 1, fun h => absurd rfl h, .leaf t.index⟩
  | case3 s _ t rest h _ _ _ ih =>
    rw [h] at hd
    obtain ⟨n, hn, hend, htally⟩ := ih hd.tail hd.tail.skipBlank
    exact ⟨n, hn, hend, (Tallies.leaf t.index).cons htally⟩
  | case4 s _ t rest h _ _ _ d left hd' _ ih =>
    rw [h] at hd
    obtain ⟨taken, e, hreads⟩ := Accepts.declaration _ hd d left hd'
    have hleft : DrawnFrom tokens left := (e ▸ hd).right
    obtain ⟨n, hn, hend, htally⟩ := ih hleft hleft.skipBlank
    exact ⟨n, hn, hend, (Tallies.ofReads hreads (.nodeIn rfl)).cons htally⟩
  | case5 s _ t rest h _ _ _ f left hd' _ ih =>
    rw [h] at hd
    have hkeeps := skipDeclaration_keeps left 0
    have hl : left <:+ t :: rest := by
      have hadvances := declaration_advances (t :: rest)
      rwa [hd'] at hadvances
    have hrest : DrawnFrom tokens (skipDeclaration 0 left).rest :=
      hd.of_suffix ((skipDeclaration_suffix left 0).trans hl)
    obtain ⟨n, hn, hend, htally⟩ := ih hrest hrest.skipBlank
    have hbroken : Tallies st tokens 0 [.node .error (st.position left) _] [st.problem f] :=
      .broken hkeeps (Points.declaration.not_isUnclosed hd') (st.position left)
    exact ⟨n, hn, hend, hbroken.cons htally⟩

/-- A block with the brace in front of it. -/
theorem declarationBlock_tallies (st : Setting) {brace : Tree} (s : Tokens)
    (hs : DrawnFrom tokens s) (hb : Tallies st tokens 0 [brace] []) :
    ∃ n ≤ 1, (n ≠ 0 → (declarationBlock st brace s).rest = []) ∧
      Tallies st tokens n [(declarationBlock st brace s).result]
        (declarationBlock st brace s).problems := by
  obtain ⟨n, hn, hend, htally⟩ := declarations_tallies st s hs
  exact ⟨n, hn, hend, (hb.cons htally).node (by simp) (by simp) _⟩

theorem strayToken_tallies (st : Setting) (expected : String) (t : Placed) (rest : Tokens) :
    Tallies st tokens 0 [(strayToken st expected t rest).result]
      (strayToken st expected t rest).problems :=
  .broken (Skipped.keeps_one t rest) rfl t.index

theorem unknownAtRule_tallies {keyword : Placed} (hs : DrawnFrom tokens (keyword :: rest))
    (hk : isAtKeyword keyword.kind = true) :
    Tallies st tokens 0 [(unknownAtRule keyword rest).result]
      (unknownAtRule keyword rest).problems := by
  obtain ⟨taken, e, hreads⟩ := unknownAtRule_follows hs hk
  exact .ofReads hreads (.nodeIn rfl)

theorem rule_tallies (st : Setting) (hs : DrawnFrom tokens s) :
    ∃ n ≤ 1, (n ≠ 0 → (rule st s).rest = []) ∧
      Tallies st tokens n [(rule st s).result.1] (rule st s).problems := by
  unfold rule
  split
  · rename_i selectors brace left h
    obtain ⟨taken, e, front, behind, rfl, hselectors, hbrace⟩ := Accepts.rulePrelude s hs _ left h
    have hleft : DrawnFrom tokens left := (e ▸ hs).right
    obtain ⟨n, hn, hend, hblock⟩ :=
      declarationBlock_tallies st left hleft (.ofReads hbrace (.leafOf _ _))
    have hlist : Tallies st tokens 0 [selectors] [] := .ofReads hselectors (.nodeIn rfl)
    exact ⟨n, hn, hend, (hlist.cons hblock).node (by simp) (by simp) _⟩
  · rename_i f left h
    exact ⟨0, Nat.zero_le 1, fun h => absurd rfl h,
      .broken (skipRule_keeps left 0) (Points.rulePrelude.not_isUnclosed h) _⟩

/-- At the end of the input only the block is reported. -/
theorem mediaBlock_nil (st : Setting) : mediaBlock st [] = ⟨[], [st.unclosed], []⟩ := by
  rw [mediaBlock_eq]
  rfl

theorem mediaBlock_tallies (st : Setting) (s : Tokens) (hs : DrawnFrom tokens s) :
    ∃ n ≤ 2, (n ≠ 0 → (mediaBlock st s).rest = []) ∧
      Tallies st tokens n (mediaBlock st s).result (mediaBlock st s).problems := by
  have hd : DrawnFrom tokens (Tokens.skipBlank s) := hs.skipBlank
  -- `n` counts the blocks that the end of the input leaves open, so it is zero while tokens are left
  fun_induction mediaBlock st s with
  | case1 => exact ⟨1, by omega, fun _ => rfl, .unclosed⟩
  | case2 s _ t rest => exact ⟨0, Nat.zero_le 2, fun h => absurd rfl h, .leaf t.index⟩
  | case3 s _ t rest h _ _ hk p _ ih =>
    rw [h] at hd
    have hr : p.rest <:+ t :: rest :=
      (unknownAtRule_suffix t rest).trans (List.suffix_cons t rest)
    have hp : DrawnFrom tokens p.rest := hd.of_suffix hr
    obtain ⟨n, hn, hend, htally⟩ := ih hp hp.skipBlank
    exact ⟨n, hn, hend, (unknownAtRule_tallies hd (isAtKeyword_of_isSome hk)).cons htally⟩
  | case4 s _ t rest h _ _ _ _ p _ ih =>
    rw [h] at hd
    obtain ⟨n, hn, hend, htally⟩ := ih hd.tail hd.tail.skipBlank
    exact ⟨n, hn, hend, (strayToken_tallies st "rule" t rest).cons htally⟩
  | case5 s _ t rest h _ _ _ _ p _ _ =>
    rw [h] at hd
    obtain ⟨n, hn, hend, htally⟩ := rule_tallies st hd
    exact ⟨n, by omega, hend, htally⟩
  | case6 s _ t rest h _ _ _ _ p _ _ ih =>
    rw [h] at hd
    have hr : p.rest <:+ t :: rest := rule_suffix st (t :: rest)
    have hp : DrawnFrom tokens p.rest := hd.of_suffix hr
    obtain ⟨m, hm, hend, hrule⟩ := rule_tallies st hd
    obtain ⟨n, hn, hend', htally⟩ := ih hp hp.skipBlank
    by_cases h0 : m = 0
    · subst h0
      exact ⟨n, hn, hend', hrule.cons htally⟩
    · -- the input ended in the block of the rule, so the media block is not closed either
      have hnil : mediaBlock st p.rest = ⟨[], [st.unclosed], []⟩ := by
        rw [show p.rest = [] from hend h0, mediaBlock_nil]
      refine ⟨m + 1, by omega, fun _ => ?_, ?_⟩
      · change (mediaBlock st p.rest).rest = []
        rw [hnil]
      · change Tallies st tokens (m + 1) ([p.result.1] ++ (mediaBlock st p.rest).result)
          (p.problems ++ (mediaBlock st p.rest).problems)
        rw [hnil]
        exact hrule.append .unclosed fun _ => rfl

/-! ## Statements -/

theorem take?_accepted {p : TokenKind → Bool} {t : Option Tree}
    (h : Production.take? p s = .accepted t rest) :
    (t = none ∧ rest = s) ∨ ∃ u : Placed, t = some u.leaf ∧ p u.kind = true ∧ s = u :: rest := by
  cases s with
  | nil =>
    cases h
    exact Or.inl ⟨rfl, rfl⟩
  | cons u left =>
    rw [Production.take?_cons] at h
    split at h
    · rename_i hp
      cases h
      exact Or.inr ⟨u, rfl, hp, rfl⟩
    · cases h
      exact Or.inl ⟨rfl, rfl⟩

/-- The trees of a namespace rule behind its keyword. -/
def namespaceRow (name : Option Placed) (address : Placed) (semicolon : Option Placed) :
    List Tree :=
  (name.map fun t => single .namespacePrefix t.leaf).toList ++
    address.leaf :: (semicolon.map Placed.leaf).toList

theorem tokens_namespaceRow (place : Nat) (keyword : Placed) (name : Option Placed)
    (address : Placed) (semicolon : Option Placed) :
    (Tree.node .namespaceRule place
      (keyword.leaf :: namespaceRow name address semicolon)).tokens =
        keyword.index :: address.index :: (semicolon.map Placed.index).toList := by
  cases name <;> cases semicolon <;> rfl

theorem count_namespaceRow (keyword : Placed) (name : Option Placed) (address : Placed)
    (semicolon : Option Placed) :
    count (isFlaw tokens) (keyword.leaf :: namespaceRow name address semicolon) = 0 := by
  cases name <;> cases semicolon <;> rfl

/-- What a namespace rule has behind its keyword, and when it is reported. -/
theorem namespaceContent_accepted {trees : List Tree} {missing : Option Fault}
    (h : namespaceContent s = .accepted (trees, missing) rest) :
    ∃ (name : Option Placed) (address : Placed) (semicolon : Option Placed),
      trees = namespaceRow name address semicolon ∧ address ∈ s ∧
      isAddress address.kind = true ∧
      (∀ t ∈ semicolon, t ∈ s ∧ t.kind = .semicolon) ∧
      missing.isSome = semicolon.isNone ∧ ∀ f ∈ missing, f.cause = .missingSemicolon := by
  obtain ⟨_, s₁, e₁, h⟩ := bind_eq_accepted h
  cases e₁
  obtain ⟨name, s₂, hname, h⟩ := bind_eq_accepted h
  obtain ⟨_, s₃, e₃, h⟩ := bind_eq_accepted h
  cases e₃
  obtain ⟨_, s₄, e₄, h⟩ := bind_eq_accepted h
  cases e₄
  obtain ⟨t, s₅, e₅, ht, h⟩ := bind_take_eq_accepted h
  obtain ⟨_, s₆, e₆, h⟩ := bind_eq_accepted h
  cases e₆
  obtain ⟨semicolon, s₇, hsemicolon, h⟩ := bind_eq_accepted h
  cases h
  have hs₂ : s₂ <:+ s :=
    (suffix_of_accepted (Production.Advances.take? _) hname).trans (Tokens.skipBlank_suffix s)
  have hs₅ : t :: s₅ <:+ s := e₅ ▸ (Tokens.skipBlank_suffix s₂).trans hs₂
  have hs₆ : Tokens.skipBlank s₅ <:+ s :=
    (Tokens.skipBlank_suffix s₅).trans ((List.suffix_cons t s₅).trans hs₅)
  obtain ⟨n, rfl⟩ : ∃ n : Option Placed, name = n.map Placed.leaf := by
    rcases take?_accepted hname with ⟨rfl, -⟩ | ⟨u, rfl, -, -⟩
    · exact ⟨none, rfl⟩
    · exact ⟨some u, rfl⟩
  have htrees (semicolon : Option Placed) :
      ((n.map Placed.leaf).map (single .namespacePrefix)).toList ++
        t.leaf :: (semicolon.map Placed.leaf).toList = namespaceRow n t semicolon := by
    rw [Option.map_map]
    rfl
  rcases take?_accepted hsemicolon with ⟨rfl, -⟩ | ⟨u, rfl, hu, e⟩
  · exact ⟨n, t, none, htrees none, hs₅.subset List.mem_cons_self, ht, by simp, rfl, by simp⟩
  · refine ⟨n, t, some u, htrees (some u), hs₅.subset List.mem_cons_self, ht, ?_, rfl, by simp⟩
    intro v hv
    cases hv
    exact ⟨hs₆.subset (e ▸ List.mem_cons_self), by simpa using hu⟩

/-- A namespace rule is reported if it has no semicolon, and kept all the same. -/
theorem namespaceRule_tallies (st : Setting) {keyword : Placed} {trees : List Tree}
    {missing : Option Fault} (hs : DrawnFrom tokens (keyword :: s))
    (hk : isAtKeyword keyword.kind = true)
    (h : namespaceContent s = .accepted (trees, missing) rest) (place : Nat) :
    Tallies st tokens 0 [.node .namespaceRule place (keyword.leaf :: trees)]
      (missing.map st.problem).toList := by
  obtain ⟨name, address, semicolon, rfl, haddress, ha, hsemicolon, hmissing, hcause⟩ :=
    namespaceContent_accepted h
  refine ⟨(missing.map st.problem).toList, by simp, ?_, ?_⟩
  · intro p hp
    obtain ⟨f, hf, rfl⟩ := Option.map_eq_some_iff.1 (Option.mem_toList.1 hp)
    exact st.problem_kind_ne (by rw [hcause f hf]; rfl)
  · have kindAt {t : Placed} (ht : t ∈ keyword :: s) :
        tokens[t.index]?.map Token.kind = some t.kind := by
      rw [(hs t ht).1]
      rfl
    have hnone (t : Placed) (ht : t ∈ keyword :: s) (h : t.kind ≠ .semicolon) :
        (tokens[t.index]?.map Token.kind == some .semicolon) = false := by
      rw [kindAt ht]
      simpa using h
    have hfirst := hnone keyword List.mem_cons_self fun e => by simp [e, isAtKeyword] at hk
    have hsecond := hnone address (List.mem_cons_of_mem keyword haddress) fun e => by
      simp [e, isAddress] at ha
    have hflaw : isFlaw tokens (.node .namespaceRule place
        (keyword.leaf :: namespaceRow name address semicolon)) = semicolon.isNone := by
      change (!List.any (Tree.tokens (.node .namespaceRule place _)) _) = _
      rw [tokens_namespaceRow, List.any_cons, List.any_cons, hfirst, hsecond]
      cases semicolon with
      | none => rfl
      | some t =>
        obtain ⟨ht, he⟩ := hsemicolon t rfl
        simp [kindAt (List.mem_cons_of_mem keyword ht), he]
    rw [count_node, count_namespaceRow, hflaw, ← hmissing, Option.length_toList]
    cases missing <;> rfl

theorem brokenAtRule_tallies (st : Setting) (keyword : Placed) {f : Fault} (left : Tokens)
    (hf : f.cause.isUnclosed = false) :
    Tallies st tokens 0 [(brokenAtRule st keyword f left).result]
      (brokenAtRule st keyword f left).problems :=
  .broken (skipStatement_keeps left 0) hf _

theorem atRule_tallies (st : Setting) {keyword : Placed} {name : String}
    (hs : DrawnFrom tokens (keyword :: s)) (hk : keyword? keyword.kind = some name) :
    ∃ n ≤ 2, (n ≠ 0 → (atRule st keyword name s).rest = []) ∧
      Tallies st tokens n [(atRule st keyword name s).result]
        (atRule st keyword name s).problems := by
  have hkeyword : isAtKeyword keyword.kind = true := isAtKeyword_of_isSome (by rw [hk]; rfl)
  have broken {f : Fault} {left : Tokens} (hf : f.cause.isUnclosed = false) :
      ∃ n ≤ 2, (n ≠ 0 → (brokenAtRule st keyword f left).rest = []) ∧
        Tallies st tokens n [(brokenAtRule st keyword f left).result]
          (brokenAtRule st keyword f left).problems :=
    ⟨0, Nat.zero_le 2, fun h => absurd rfl h, brokenAtRule_tallies st keyword left hf⟩
  unfold atRule
  split
  · split
    · rename_i trees missing left h
      exact ⟨0, Nat.zero_le 2, fun h => absurd rfl h,
        namespaceRule_tallies st hs hkeyword h keyword.index⟩
    · rename_i h
      exact broken (Points.namespaceContent.not_isUnclosed h)
  · split
    · split
      · rename_i brace left h
        obtain ⟨front, e, hbrace⟩ := Accepts.fontFaceBrace s hs.tail brace left h
        have hleft : DrawnFrom tokens left := (e ▸ hs.tail).right
        obtain ⟨n, hn, hend, hblock⟩ :=
          declarationBlock_tallies st left hleft (.ofReads hbrace (.leafOf _ _))
        exact ⟨n, by omega, hend,
          ((Tallies.leaf keyword.index).cons hblock).node (by simp) (by simp) _⟩
      · rename_i h
        exact broken (Points.fontFaceBrace.not_isUnclosed h)
    · split
      · split
        · rename_i queries brace left h
          obtain ⟨front, e, hprelude⟩ := Accepts.mediaPrelude _ hs.tail.skipBlank _ left h
          have hleft : DrawnFrom tokens left := (e ▸ hs.tail.skipBlank).right
          obtain ⟨n, hn, hend, hcontent⟩ := mediaBlock_tallies st left hleft
          have hfront : Tallies st tokens 0 [queries, brace] [] :=
            .ofReads hprelude (.cons (.nodeIn rfl) (.cons (.leafOf _ _) .nil))
          have hinner := hfront.append hcontent fun h => absurd rfl h
          rw [Nat.zero_add] at hinner
          exact ⟨n, hn, hend,
            ((Tallies.leaf keyword.index).cons hinner).node (by simp) (by simp) _⟩
        · rename_i h
          exact broken (Points.mediaPrelude.not_isUnclosed h)
      · exact ⟨0, Nat.zero_le 2, fun h => absurd rfl h, unknownAtRule_tallies hs hkeyword⟩

theorem statement_tallies (st : Setting) {t : Placed} (hs : DrawnFrom tokens (t :: rest)) :
    ∃ n ≤ 2, (n ≠ 0 → (statement st t rest).rest = []) ∧
      Tallies st tokens n [(statement st t rest).result] (statement st t rest).problems := by
  unfold statement
  split
  · rename_i hk
    exact atRule_tallies st hs hk
  · split
    · exact ⟨0, Nat.zero_le 2, fun h => absurd rfl h, strayToken_tallies st _ t rest⟩
    · obtain ⟨n, hn, hend, htally⟩ := rule_tallies st hs
      exact ⟨n, by omega, hend, htally⟩

theorem statements_tallies (st : Setting) (s : Tokens) (hs : DrawnFrom tokens s) :
    ∃ n ≤ 2, Tallies st tokens n (statements st s).result (statements st s).problems := by
  have hd : DrawnFrom tokens (Tokens.skipBlank s) := hs.skipBlank
  fun_induction statements st s with
  | case1 => exact ⟨0, Nat.zero_le 2, .nil⟩
  | case2 s _ t rest h p _ ih =>
    rw [h] at hd
    have hr : p.rest <:+ t :: rest := (statement_suffix st t rest).trans (List.suffix_cons t rest)
    have hp : DrawnFrom tokens p.rest := hd.of_suffix hr
    obtain ⟨m, hm, hend, hfirst⟩ := statement_tallies st hd
    obtain ⟨n, hn, htally⟩ := ih hp hp.skipBlank
    by_cases h0 : m = 0
    · subst h0
      exact ⟨n, hn, hfirst.cons htally⟩
    · -- the input ended in this statement, which is the last one
      have hnil : statements st p.rest = ⟨[], [], []⟩ := by
        rw [show p.rest = [] from hend h0, statements_eq]
        rfl
      refine ⟨m, hm, ?_⟩
      change Tallies st tokens m ([p.result] ++ (statements st p.rest).result)
        (p.problems ++ (statements st p.rest).problems)
      rw [hnil, List.append_nil, List.append_nil]
      exact hfirst

end

end Grammar

/-- One problem for each recovery: up to a few problems at the end, as many are reported as there
    are error nodes and namespace rules without a semicolon in the tree. At the end of the input a
    block of declarations and the media block around it may be reported as not closed, at the first
    `eof`. -/
theorem parseTokens_tally (source : String) (tokens : List Token) (h : EndsInEof tokens) :
    let parsing := parseTokens source tokens
    ∃ faults unclosed, parsing.problems = faults ++ unclosed ∧
      (∀ p ∈ faults, p.kind ≠ .missingCloseBrace) ∧
      faults.length = parsing.tree.subtrees.countP Tree.isError +
        parsing.tree.subtrees.countP (Tree.lacksSemicolon tokens) ∧
      unclosed.length ≤ 2 ∧
      ∀ p ∈ unclosed, p.kind = .missingCloseBrace ∧
        ∃ stop, tokens[tokens.findIdx Token.isEof]? = some stop ∧ stop.kind = .eof ∧
          p.span = stop.span := by
  intro parsing
  obtain ⟨n, hn, faults, hproblems, hkind, hlength⟩ := statements_tallies
    (setting source tokens) (numbered tokens) (numbered_drawnFrom tokens)
  refine ⟨faults, List.replicate n (setting source tokens).unclosed, hproblems, hkind, ?_,
    by simpa using hn, fun p hp => ?_⟩
  · rw [← Tree.countP_isFlaw, hlength]
    exact (List.countP_cons_of_neg (by simp [Tree.isFlaw, Tree.isError, Tree.lacksSemicolon,
      Tree.kind?])).symm
  · have hne : tokens ≠ [] := by
      rintro rfl
      rw [statements_eq] at hproblems
      obtain ⟨-, hnil⟩ := List.append_eq_nil_iff.1 hproblems.symm
      rw [hnil] at hp
      contradiction
    obtain ⟨stop, hstop, hk⟩ := exists_eof h hne
    rw [(List.mem_replicate.1 hp).2]
    refine ⟨rfl, stop, hstop, hk, ?_⟩
    change (tokens[(numbered tokens).length]?.map Token.span).getD .nowhere = stop.span
    rw [length_numbered, hstop]
    rfl

/-- A namespace rule without a semicolon, and two blocks that are not closed. -/
def unclosedTokens : List Token :=
  (tokenize "open.css" "@namespace'u'@media x\x7ba\x7bb".toList .standard).tokens

/-- The semicolon and the value of the declaration are missing, and then both braces. -/
theorem parseTokens_tally_unclosedTokens :
    EndsInEof unclosedTokens ∧ ∃ faults unclosed,
      (parseTokens "open.css" unclosedTokens).problems = faults ++ unclosed ∧
      (∀ p ∈ faults, p.kind ≠ .missingCloseBrace) ∧ faults.length = 1 + 1 ∧ unclosed.length = 2 ∧
      ∀ p ∈ unclosed, p.kind = .missingCloseBrace ∧
        ∃ stop, unclosedTokens[unclosedTokens.findIdx Token.isEof]? = some stop ∧ stop.kind = .eof ∧
          p.span = stop.span := by
  have hend : EndsInEof unclosedTokens := by
    have hlast : unclosedTokens.getLast?.map Token.kind = some .eof := by decide +kernel
    intro t ht
    rw [ht] at hlast
    exact Option.some.inj hlast
  have hcounts : (parseTokens "open.css" unclosedTokens).problems.length = 4 ∧
      (parseTokens "open.css" unclosedTokens).tree.subtrees.countP Tree.isError = 1 ∧
      (parseTokens "open.css" unclosedTokens).tree.subtrees.countP
        (Tree.lacksSemicolon unclosedTokens) = 1 := by decide +kernel
  obtain ⟨hlength, herrors, hlacks⟩ := hcounts
  obtain ⟨faults, unclosed, e, hkind, hfaults, -, hall⟩ :=
    parseTokens_tally "open.css" unclosedTokens hend
  rw [herrors, hlacks] at hfaults
  rw [e, List.length_append, hfaults] at hlength
  exact ⟨hend, faults, unclosed, e, hkind, hfaults, by omega, hall⟩

end Stylesheet
