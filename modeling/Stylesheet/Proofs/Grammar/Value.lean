import Stylesheet.Proofs.Grammar.Reads

/-!
# What values are read from

Terms, values, function calls and named arguments call each other, so one induction on the number of
tokens covers all of them (`readsValues`).
-/

namespace Stylesheet.Grammar

open Computability Production

section

variable {tokens : List Token}

theorem equalsSign?_eq {s rest : Tokens} {e : Tree} (h : equalsSign? s = some (e, rest)) :
    ∃ b t c, s = b ++ t :: (c ++ rest) ∧ Blank b ∧ Blank c ∧ t.kind = .comparison .equals ∧
      e = t.leaf := by
  obtain ⟨b, hb, hs⟩ := exists_blank s
  unfold equalsSign? at h
  split at h
  · rename_i t behind e'
    split at h
    · rename_i hk
      cases h
      obtain ⟨c, hc, hr⟩ := exists_blank behind
      refine ⟨b, t, c, ?_, hb, hc, hk, rfl⟩
      rw [← hr, ← e']
      exact hs
    · contradiction
  · contradiction

/-- What further terms are read as: each with the separator in front of it. -/
def furtherTerms (tokens : List Token) (named : Bool) : Language Tree :=
  (optional (leafOf tokens fun k => isSeparator k || k == .whitespace) * termRow named)∗

/-- The three kinds of reading at one place. -/
structure ReadsValues (tokens : List Token) (named : Bool) (s : Tokens) : Prop where
  term : AcceptsAt (term named) s fun taken t => Reads tokens (termRow named) taken [t] []
  terms : AcceptsAt (terms named) s fun taken row =>
    Reads tokens (furtherTerms tokens named) taken row []
  value : AcceptsAt (value named) s fun taken t =>
    Reads tokens (valueNode (leafOf tokens) named) taken [t] []

/-- A value is read where its terms are. -/
theorem accepts_value {named : Bool} {s : Tokens} (hs : DrawnFrom tokens s)
    (ht : AcceptsAt (term named) s fun taken t => Reads tokens (termRow named) taken [t] [])
    (hts : ∀ rest : Tokens, rest.length < s.length → DrawnFrom tokens rest →
      AcceptsAt (terms named) rest fun taken row =>
        Reads tokens (furtherTerms tokens named) taken row []) :
    AcceptsAt (value named) s fun taken t =>
      Reads tokens (valueNode (leafOf tokens) named) taken [t] [] := by
  apply AcceptsAt.congr (value_eq named s)
  apply AcceptsAt.bind ht
  intro taken first left h e hfirst
  have hl := term_consumes named s first left h
  rw [e] at hs
  apply AcceptsAt.bind (hts left hl hs.right)
  intro more row _ _ _ hmore
  apply AcceptsAt.pure
  have hrow : Reads tokens (valueRow (leafOf tokens) named) (taken ++ more) (first :: row) [] :=
    hfirst.append hmore
  rw [List.append_nil]
  exact Reads.nodeWith (by simp) hrow (valueRow_le _ named) _

/-- A name, an equals sign, and a term that has no name itself. -/
theorem accepts_namedArgument {t : Placed} {rest behind : Tokens} {equals : Tree}
    (hs : DrawnFrom tokens (t :: rest)) (ht : t.kind.isIdent = true)
    (he : equalsSign? rest = some (equals, behind))
    (hterm : AcceptsAt (term false) behind fun taken t =>
      Reads tokens (termRow false) taken [t] []) :
    ∀ a left, namedArgument t.leaf equals behind = .accepted a left →
      ∃ taken, t :: rest = taken ++ left ∧ Reads tokens (nodeOf .namedArgument) taken [a] [] := by
  intro a left h
  obtain ⟨b, u, c, hr, hb, hc, hu, rfl⟩ := equalsSign?_eq he
  have hu' : u ∈ t :: rest := by
    rw [hr]
    exact List.mem_cons_of_mem t (List.mem_append_right b List.mem_cons_self)
  have step : AcceptsAt (namedArgument t.leaf u.leaf) behind fun taken a =>
      Reads tokens (nodeOf .namedArgument) ([t] ++ ((b ++ [u]) ++ (c ++ taken))) [a] [] := by
    apply AcceptsAt.bind hterm
    intro taken v _ _ _ hv
    apply AcceptsAt.pure
    have hname := Reads.leaf (hs t List.mem_cons_self) ht
    have hequals : Reads tokens (leafOf tokens (· == .comparison .equals)) [u] [u.leaf] [] :=
      .leaf (hs u hu') (beq_iff_eq.2 hu)
    have hrow : Reads tokens (production (leafOf tokens) .namedArgument) _ _ [] :=
      hname.cons ((hequals.blank hb).cons ((hv.cons .nil).blank hc))
    exact hrow.node (by simp) _
  obtain ⟨taken, e, hreads⟩ := step a left h
  refine ⟨_, ?_, hreads⟩
  rw [hr, e]
  simp

/-- A function and its arguments, if it has any. -/
theorem accepts_functionCall {t : Placed} {rest : Tokens} (hs : DrawnFrom tokens (t :: rest))
    (ht : isFunction t.kind = true)
    (hvalue : ∀ s : Tokens, s.length ≤ rest.length → DrawnFrom tokens s →
      AcceptsAt (value true) s fun taken t =>
        Reads tokens (valueNode (leafOf tokens) true) taken [t] []) :
    ∀ a left, functionCall t.leaf rest = .accepted a left →
      ∃ taken, t :: rest = taken ++ left ∧ Reads tokens (nodeOf .functionCall) taken [a] [] := by
  have hname := Reads.leaf (hs t List.mem_cons_self) ht
  have hrest : DrawnFrom tokens rest := hs.tail
  have step : AcceptsAt (functionCall t.leaf) rest fun taken a =>
      Reads tokens (nodeOf .functionCall) ([t] ++ taken) [a] [] := by
    unfold functionCall
    apply AcceptsAt.bind (Accepts.blank rest hrest)
    intro b _ left _ e hb
    rw [e] at hrest
    apply AcceptsAt.bind (Accepts.take? _ left hrest.right)
    intro c close left' _ e' hclose
    have hl : left'.length ≤ rest.length := by
      rw [e, e', List.length_append, List.length_append]
      omega
    have hleft' : DrawnFrom tokens left' := (e' ▸ hrest.right).right
    cases close with
    | some close =>
      apply AcceptsAt.pure
      have hrow : Reads tokens (production (leafOf tokens) .functionCall) _ _ [] :=
        hname.cons (Reads.absent.cons ((Reads.cons hclose .nil).blank hb))
      exact hrow.node (by simp) _
    | none =>
      cases (show c = [] from hclose)
      apply AcceptsAt.bind (hvalue left' hl hleft')
      intro v value left'' _ e'' hv
      rw [e''] at hleft'
      refine (Accepts.bind .blank fun b' _ hb' => .bind (.take _ _) fun d close hclose =>
        .pure ?_) left'' hleft'.right
      have hrow : Reads tokens (production (leafOf tokens) .functionCall) _ _ [] :=
        hname.cons ((hv.present.cons ((hclose.cons .nil).blank hb')).blank hb)
      exact hrow.node (by simp) _
  intro a left h
  obtain ⟨taken, e, hreads⟩ := step a left h
  exact ⟨[t] ++ taken, by rw [e]; rfl, hreads⟩

/-- A term, if shorter lists are read as they should be. -/
theorem accepts_term {named : Bool} {s : Tokens} (hs : DrawnFrom tokens s)
    (ih : ∀ (named : Bool) (rest : Tokens), rest.length < s.length → DrawnFrom tokens rest →
      ReadsValues tokens named rest) :
    AcceptsAt (term named) s fun taken t => Reads tokens (termRow named) taken [t] [] := by
  intro a left h
  rw [term_eq] at h
  cases s with
  | nil => contradiction
  | cons t rest =>
    dsimp only at h
    -- a named argument, a function call, or a token by itself
    split at h
    · rename_i equals behind he
      split at he
      · rename_i hn
        obtain ⟨hn, ht⟩ := Bool.and_eq_true_iff.1 hn
        have hl := equalsSign?_length he
        obtain ⟨b, u, c, hr, -⟩ := equalsSign?_eq he
        have hb : DrawnFrom tokens behind := by
          have hsplit : t :: rest = (t :: (b ++ u :: c)) ++ behind := by
            rw [hr, List.cons_append, List.append_assoc, List.cons_append]
          rw [hsplit] at hs
          exact hs.right
        have hterm := (ih false behind (Nat.lt_succ_of_lt hl) hb).term
        obtain ⟨taken, e, hreads⟩ := accepts_namedArgument hs ht he hterm a left h
        exact ⟨taken, e, hreads.widen (by simp [hn])⟩
      · contradiction
    · split at h
      · rename_i name hk
        have hf : isFunction t.kind = true := by rw [hk]; rfl
        obtain ⟨taken, e, hreads⟩ := accepts_functionCall hs hf
          (fun s hl hd => (ih true s (Nat.lt_succ_of_le hl) hd).value) a left h
        exact ⟨taken, e, hreads.widen (by simp)⟩
      · rename_i hk
        split at h
        · rename_i hp
          cases h
          have hlit : isLiteral t.kind = true := by
            rw [isLiteral, hp]
            cases hf : t.kind <;> first | rfl | exact absurd hf (hk _)
          have hleaf := Reads.leaf (hs t List.mem_cons_self) hlit
          have hnode : Reads tokens (nodeOf .term) [t] [.node .term t.index [t.leaf]] [] :=
            hleaf.node (by simp) _
          exact ⟨[t], rfl, hnode.widen (by simp)⟩
        · contradiction

/-- The blank that separates two terms. -/
theorem reads_blankLeaf {b rest : Tokens} {t : Placed} (hs : DrawnFrom tokens (b ++ t :: rest))
    (hb : Blank b) (ht : startsTerm t.kind = true) :
    Reads tokens (optional (leafOf tokens fun k => isSeparator k || k == .whitespace)) b
      (blankLeaf (b ++ t :: rest)) [] := by
  cases b with
  | nil =>
    have hn : Tokens.isBlank t = false := by
      rw [Tokens.isBlank, Token.isWhitespace, beq_eq_false_iff_ne]
      intro e
      rw [Placed.kind, e] at ht
      contradiction
    rw [List.nil_append, blankLeaf, hn]
    exact .absent
  | cons u b =>
    have hu := hb u List.mem_cons_self
    rw [List.cons_append, blankLeaf, if_pos hu]
    have hk : (isSeparator u.kind || u.kind == .whitespace) = true := by
      rw [show (u.kind == .whitespace) = true from hu, Bool.or_true]
    have hleaf : Reads tokens (leafOf tokens fun k => isSeparator k || k == .whitespace) [u]
        [u.leaf] [] :=
      .leaf (hs u List.mem_cons_self) hk
    exact (hleaf.blankBehind fun v hv => hb v (List.mem_cons_of_mem u hv)).present

/-- Behind a separator, where shorter lists are read as they should be. -/
theorem accepts_separated {named : Bool} {t : Placed} {rest : Tokens}
    (hs : DrawnFrom tokens (t :: rest)) (ht : isSeparator t.kind = true)
    (hterm : ∀ r : Tokens, r.length ≤ rest.length → DrawnFrom tokens r →
      AcceptsAt (term named) r fun taken t => Reads tokens (termRow named) taken [t] [])
    (hterms : ∀ r : Tokens, r.length ≤ rest.length → DrawnFrom tokens r →
      AcceptsAt (terms named) r fun taken row =>
        Reads tokens (furtherTerms tokens named) taken row []) :
    AcceptsAt (do
        blank
        let next ← term named
        let more ← terms named
        return t.leaf :: next :: more : Production (List Tree)) rest fun taken row =>
          Reads tokens (furtherTerms tokens named) ([t] ++ taken) row [] := by
  have hleaf : Reads tokens (leafOf tokens fun k => isSeparator k || k == .whitespace) [t]
      [t.leaf] [] :=
    .leaf (hs t List.mem_cons_self) (by rw [ht, Bool.true_or])
  have hrest : DrawnFrom tokens rest := hs.tail
  apply AcceptsAt.bind (Accepts.blank rest hrest)
  intro c _ r _ er hc
  have hr : DrawnFrom tokens r := (er ▸ hrest).right
  have hlr : r.length ≤ rest.length := by
    rw [er, List.length_append]
    omega
  apply AcceptsAt.bind (hterm r hlr hr)
  intro v next r' hn er' hnext
  have hlr' := term_consumes named r next r' hn
  apply AcceptsAt.bind (hterms r' (by omega) (er' ▸ hr).right)
  intro m more _ _ _ hmore
  apply AcceptsAt.pure
  exact (hleaf.present.cons ((hnext.cons hmore.last).blank hc)).again

/-- Behind a term that no separator follows, in the same way. -/
theorem accepts_adjacent {named : Bool} {b s : Tokens} {row : List Tree}
    (hs : DrawnFrom tokens s)
    (hb : Reads tokens (optional (leafOf tokens fun k => isSeparator k || k == .whitespace)) b
      row [])
    (hterm : AcceptsAt (term named) s fun taken t => Reads tokens (termRow named) taken [t] [])
    (hterms : ∀ r : Tokens, r.length < s.length → DrawnFrom tokens r →
      AcceptsAt (terms named) r fun taken row =>
        Reads tokens (furtherTerms tokens named) taken row []) :
    AcceptsAt (do
        let next ← term named
        let more ← terms named
        return row ++ next :: more : Production (List Tree)) s fun taken row =>
          Reads tokens (furtherTerms tokens named) (b ++ taken) row [] := by
  apply AcceptsAt.bind hterm
  intro v next r hn er hnext
  have hlr := term_consumes named s next r hn
  apply AcceptsAt.bind (hterms r hlr (er ▸ hs).right)
  intro m more _ _ _ hmore
  apply AcceptsAt.pure
  exact (hb.cons (hnext.cons hmore.last)).again

/-- What follows a term, if shorter lists are read as they should be. -/
theorem accepts_terms {named : Bool} {s : Tokens} (hs : DrawnFrom tokens s)
    (hterm : ∀ rest : Tokens, rest.length ≤ s.length → DrawnFrom tokens rest →
      AcceptsAt (term named) rest fun taken t => Reads tokens (termRow named) taken [t] [])
    (hterms : ∀ rest : Tokens, rest.length < s.length → DrawnFrom tokens rest →
      AcceptsAt (terms named) rest fun taken row =>
        Reads tokens (furtherTerms tokens named) taken row []) :
    AcceptsAt (terms named) s fun taken row =>
      Reads tokens (furtherTerms tokens named) taken row [] := by
  intro a left h
  obtain ⟨b, hb, e⟩ := exists_blank s
  rw [terms_eq] at h
  split at h
  · rename_i hk
    cases h
    rw [hk] at e
    exact ⟨b ++ [], by rw [e, List.append_nil, List.append_nil], Reads.star_nil.blank hb⟩
  · rename_i t rest hk
    rw [hk] at e
    have hd := hs
    rw [e] at hd
    have hl : (t :: rest).length ≤ s.length := by
      rw [e, List.length_append]
      omega
    rw [List.length_cons] at hl
    split at h
    · -- a separator: the blanks on both sides of it are left out
      rename_i hsep
      obtain ⟨taken, e', hreads⟩ := accepts_separated hd.right hsep
        (fun r hr => hterm r (by omega)) (fun r hr => hterms r (by omega)) a left h
      exact ⟨b ++ ([t] ++ taken), by rw [e, e']; simp, hreads.blank hb⟩
    · split at h
      · -- a term: the first blank in front of it is kept
        rename_i hstart
        have hblank : Reads tokens _ b (blankLeaf s) [] := e ▸ reads_blankLeaf hd hb hstart
        have hlt (r : Tokens) (hr : r.length < (t :: rest).length) : r.length < s.length := by
          rw [List.length_cons] at hr
          omega
        obtain ⟨taken, e', hreads⟩ := accepts_adjacent hd.right hblank
          (hterm (t :: rest) hl hd.right) (fun r hr => hterms r (hlt r hr)) a left h
        exact ⟨b ++ taken, by rw [List.append_assoc, ← e', ← e], hreads⟩
      · cases h
        exact ⟨b ++ [], by rw [e, List.append_nil], Reads.star_nil.blank hb⟩

theorem readsValues (n : Nat) : ∀ (named : Bool) (s : Tokens), s.length < n → DrawnFrom tokens s →
    ReadsValues tokens named s := by
  -- on the number of tokens, since an argument of a function is a value again
  induction n with
  | zero => exact fun _ _ h => absurd h (Nat.not_lt_zero _)
  | succ n ih =>
    have one (named : Bool) (s : Tokens) (hn : s.length < n + 1) (hs : DrawnFrom tokens s) :
        AcceptsAt (term named) s fun taken t => Reads tokens (termRow named) taken [t] [] :=
      accepts_term hs fun named rest hl => ih named rest (by omega)
    intro named s hn hs
    have further (rest : Tokens) (hl : rest.length < s.length) (hd : DrawnFrom tokens rest) :
        AcceptsAt (terms named) rest fun taken row =>
          Reads tokens (furtherTerms tokens named) taken row [] :=
      (ih named rest (by omega) hd).terms
    exact ⟨one named s hn hs, accepts_terms hs (fun rest hl => one named rest (by omega)) further,
      accepts_value hs (one named s hn hs) further⟩

theorem Accepts.value (named : Bool) : Accepts tokens (value named) fun taken t =>
    Reads tokens (valueNode (leafOf tokens) named) taken [t] [] :=
  fun s hs => (readsValues (s.length + 1) named s (Nat.lt_succ_self _) hs).value

end

end Stylesheet.Grammar
