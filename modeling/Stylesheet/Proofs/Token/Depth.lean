import Stylesheet.Proofs.Token.Limit

/-!
# The depth of a text

Which brackets are open at a place shows in the tokens in front of it (`bracketsBehind`), and so does
how many are open inside one another at most (`mostOpen`). Balanced tokens leave the brackets as they are
(`Nests`). For a whole text the brackets are the blocks of its lexemes (`nestingDepth`), and the nesting
limit is kept exactly if it is no less (`tokenize_tooDeep_eq_none_iff`). The tokens open no more than the
lexemes do, since only the blocks of quoted addresses are left out of them (`mostOpen_tokenize`).
-/

namespace Stylesheet

/-- The brackets that are open behind a token, the innermost first. A closing bracket that does not fit
    the innermost open one closes nothing. -/
def bracketsBehind (stack : List Bracket) (k : TokenKind) : List Bracket :=
  match k.opens? with
  | some b => b :: stack
  | none => if stack.head?.map .closing = some k then stack.tail else stack

/-- The most brackets that are open anywhere in a row of tokens. -/
def mostOpen (stack : List Bracket) : List TokenKind → Nat
  | [] => stack.length
  | k :: ks => max stack.length (mostOpen (bracketsBehind stack k) ks)

section

variable {stack : List Bracket} {k : TokenKind} {b : Bracket}

theorem bracketsBehind_of_opens (h : k.opens? = some b) (stack : List Bracket) :
    bracketsBehind stack k = b :: stack := by
  rw [bracketsBehind, h]

/-- A token that opens nothing and does not close the innermost bracket. -/
theorem bracketsBehind_eq_self (ho : k.opens? = none) (hc : stack.head?.map .closing ≠ some k) :
    bracketsBehind stack k = stack := by
  rw [bracketsBehind, ho]
  exact if_neg hc

/-- A token that opens and closes nothing. -/
theorem bracketsBehind_of_inert (ho : k.opens? = none) (hc : k.isClosing = false)
    (stack : List Bracket) : bracketsBehind stack k = stack := by
  refine bracketsBehind_eq_self ho fun e => ?_
  obtain ⟨b, -, rfl⟩ := Option.map_eq_some_iff.1 e
  contradiction

theorem bracketsBehind_closing (b : Bracket) (outer : List Bracket) :
    bracketsBehind (b :: outer) (.closing b) = outer :=
  if_pos rfl

theorem length_le_mostOpen (stack : List Bracket) (ks : List TokenKind) :
    stack.length ≤ mostOpen stack ks := by
  cases ks with
  | nil => exact Nat.le_refl _
  | cons k ks => exact Nat.le_max_left ..

theorem mostOpen_append (stack : List Bracket) (ks more : List TokenKind) :
    mostOpen stack (ks ++ more) =
      max (mostOpen stack ks) (mostOpen (ks.foldl bracketsBehind stack) more) := by
  induction ks generalizing stack with
  | nil => exact (Nat.max_eq_right (length_le_mostOpen stack more)).symm
  | cons k ks ih => rw [List.cons_append, mostOpen, ih, mostOpen, List.foldl_cons, Nat.max_assoc]

/-- What is open behind a row is open in it. -/
theorem foldl_length_le_mostOpen (stack : List Bracket) (ks : List TokenKind) :
    (ks.foldl bracketsBehind stack).length ≤ mostOpen stack ks := by
  induction ks generalizing stack with
  | nil => exact Nat.le_refl _
  | cons k ks ih => exact Nat.le_trans (ih _) (Nat.le_max_right ..)

theorem exists_mostOpen_le_of_infix {ks all : List TokenKind} (h : ks <:+: all)
    (stack : List Bracket) : ∃ stack', mostOpen stack' ks ≤ mostOpen stack all := by
  obtain ⟨front, behind, rfl⟩ := h
  refine ⟨front.foldl bracketsBehind stack, ?_⟩
  rw [mostOpen_append, mostOpen_append]
  omega

end

/-! ## Balanced tokens -/

/-- Behind these tokens the same brackets are open as in front of them, and in between `n` more inside
    one another. -/
def Nests (n : Nat) (ks : List TokenKind) : Prop :=
  ∀ stack, ks.foldl bracketsBehind stack = stack ∧ mostOpen stack ks = stack.length + n

namespace Nests

variable {n n' : Nat} {k : TokenKind} {b : Bracket} {ks more : List TokenKind}

theorem nil : Nests 0 [] := fun _ => ⟨rfl, rfl⟩

theorem one (ho : k.opens? = none) (hc : k.isClosing = false) : Nests 0 [k] := by
  intro stack
  have hself := bracketsBehind_of_inert ho hc stack
  refine ⟨hself, ?_⟩
  rw [mostOpen, hself, mostOpen, Nat.max_self, Nat.add_zero]

theorem append (h : Nests n ks) (h' : Nests n' more) : Nests (max n n') (ks ++ more) := by
  intro stack
  obtain ⟨hfold, hmost⟩ := h stack
  obtain ⟨hfold', hmost'⟩ := h' stack
  refine ⟨by rw [List.foldl_append, hfold, hfold'], ?_⟩
  rw [mostOpen_append, hfold, hmost, hmost']
  omega

/-- Balanced tokens between an opening bracket and its closing one. -/
theorem block (ho : k.opens? = some b) (h : Nests n ks) :
    Nests (n + 1) (k :: (ks ++ [.closing b])) := by
  intro stack
  obtain ⟨hfold, hmost⟩ := h (b :: stack)
  rw [List.length_cons] at hmost
  have hclosed := bracketsBehind_closing b stack
  refine ⟨?_, ?_⟩
  · rw [List.foldl_cons, bracketsBehind_of_opens ho, List.foldl_append, hfold]
    exact hclosed
  · rw [mostOpen, bracketsBehind_of_opens ho, mostOpen_append, hfold, hmost, mostOpen, hclosed,
      mostOpen, List.length_cons]
    omega

end Nests

namespace Lexeme

/-- The token that a lexeme is by itself. -/
def tokenKind? (l : Lexeme) : Option TokenKind :=
  match l.kind with
  | .token k => some k
  | _ => none

theorem opens?_eq (l : Lexeme) : l.opens? = l.tokenKind?.bind TokenKind.opens? := by
  rw [opens?, tokenKind?]
  cases l.kind <;> rfl

theorem closes_iff {l : Lexeme} {b : Bracket} : l.closes b = true ↔ l.tokenKind? = some (.closing b) := by
  rw [closes, tokenKind?, beq_iff_eq]
  cases l.kind <;> simp

end Lexeme

/-- How many blocks a text opens inside one another. -/
def nestingDepth (text : List Char) : Nat :=
  mostOpen [] ((Lexeme.scan .start text).filterMap Lexeme.tokenKind?)

namespace TokenStream

open Lexeme

/-! ## One lexeme -/

/-- The brackets of the blocks that give tokens. -/
def loudBrackets (blocks : List Block) : List Bracket :=
  (blocks.filter fun b => !b.silent).map Block.bracket

theorem length_loudBrackets_le (blocks : List Block) : (loudBrackets blocks).length ≤ blocks.length := by
  rw [loudBrackets, List.length_map]
  exact List.length_filter_le ..

theorem loudBrackets_cons (b : Block) (outer : List Block) :
    loudBrackets (b :: outer) = if b.silent then loudBrackets outer else b.bracket :: loudBrackets outer := by
  cases hs : b.silent <;> simp [loudBrackets, hs]

section

variable {l : Lexeme} {blocks : List Block} {bracket : Bracket}

/-- The brackets that are open behind a lexeme which opens one. -/
theorem bracketsBehind_opening (ho : l.opens? = some bracket) (stack : List Bracket) :
    l.tokenKind?.toList.foldl bracketsBehind stack = bracket :: stack := by
  rw [opens?_eq] at ho
  obtain ⟨k, hk, ho⟩ := Option.bind_eq_some_iff.1 ho
  rw [hk]
  exact bracketsBehind_of_opens ho stack

/-- Behind one which opens none, the innermost is closed if the lexeme closes it. -/
theorem bracketsBehind_lexeme (ho : l.opens? = none) (b : Bracket) (outer : List Bracket) :
    l.tokenKind?.toList.foldl bracketsBehind (b :: outer) =
      if l.closes b then outer else b :: outer := by
  have hiff := closes_iff (l := l) (b := b)
  cases hk : l.tokenKind? with
  | none =>
    have hc : ¬ l.closes b = true := fun hc => by simpa [hk] using hiff.1 hc
    rw [if_neg hc]
    rfl
  | some k =>
    rw [opens?_eq, hk, Option.bind_some] at ho
    rw [hk, Option.some_inj] at hiff
    show bracketsBehind (b :: outer) k = _
    split
    · rename_i hc
      rw [hiff.1 hc]
      exact bracketsBehind_closing b outer
    · rename_i hc
      have hne : (b :: outer).head?.map .closing ≠ some k :=
        fun e => hc (hiff.2 (Option.some.inj e).symm)
      exact bracketsBehind_eq_self ho hne

/-- Where nothing is open, such a lexeme closes nothing. -/
theorem bracketsBehind_lexeme_nil (ho : l.opens? = none) :
    l.tokenKind?.toList.foldl bracketsBehind [] = [] := by
  rw [opens?_eq] at ho
  cases hk : l.tokenKind? with
  | none => rfl
  | some k =>
    rw [hk, Option.bind_some] at ho
    exact bracketsBehind_eq_self ho (by simp)

/-- The open blocks follow the brackets that the lexemes are. -/
theorem map_bracket_close (ho : l.opens? = none) (blocks : List Block) :
    (close l blocks).map Block.bracket =
      l.tokenKind?.toList.foldl bracketsBehind (blocks.map Block.bracket) := by
  cases blocks with
  | nil => exact (bracketsBehind_lexeme_nil ho).symm
  | cons b outer =>
    rw [List.map_cons, bracketsBehind_lexeme ho, close]
    split <;> rfl

/-- A lexeme opens and closes what its token does: those that are no token by themselves give one that
    opens and closes nothing. -/
theorem foldl_token? (l : Lexeme) (stack : List Bracket) :
    (l.token?.toList.map Token.kind).foldl bracketsBehind stack =
      l.tokenKind?.toList.foldl bracketsBehind stack := by
  rw [token?, tokenKind?]
  cases l.kind with
  | cutString value => exact bracketsBehind_of_inert (k := .string value) rfl rfl stack
  | malformedUrl content => exact bracketsBehind_of_inert (k := .url content) rfl rfl stack
  | _ => rfl

/-- Outside silent blocks, the tokens follow the open blocks as the lexemes do. -/
theorem loudBrackets_close (ho : l.opens? = none) (hs : isSilent blocks = false) :
    loudBrackets (close l blocks) =
      (l.token?.toList.map Token.kind).foldl bracketsBehind (loudBrackets blocks) := by
  rw [foldl_token?]
  cases blocks with
  | nil => exact (bracketsBehind_lexeme_nil ho).symm
  | cons b outer =>
    have hb : loudBrackets (b :: outer) = b.bracket :: loudBrackets outer := by
      rw [loudBrackets_cons, show b.silent = false from hs, if_neg Bool.false_ne_true]
    rw [hb, bracketsBehind_lexeme ho, close]
    split
    · rfl
    · exact hb

/-- In a silent block, no bracket that gives a token is closed. -/
theorem loudBrackets_close_silent (hs : isSilent blocks = true) (l : Lexeme) :
    loudBrackets (close l blocks) = loudBrackets blocks := by
  cases blocks with
  | nil => rfl
  | cons b outer =>
    rw [close]
    split
    · rw [loudBrackets_cons, if_pos (show b.silent = true from hs)]
    · rfl

/-- A block that is opened gives the token of its bracket, or that of a quoted address. -/
theorem loudBrackets_opened (ho : l.opens? = some bracket) (blocks : List Block) (ls : List Lexeme) :
    loudBrackets (⟨bracket, (l.quotedUrl? ls).isSome⟩ :: blocks) =
      (((l.quotedUrl? ls).or l.token?).toList.map Token.kind).foldl bracketsBehind
        (loudBrackets blocks) := by
  rw [loudBrackets_cons]
  cases hq : l.quotedUrl? ls with
  | some token =>
    obtain ⟨-, value, inner, -, rfl⟩ := quotedUrl?_eq hq
    exact (bracketsBehind_of_inert (k := .url value) rfl rfl (loudBrackets blocks)).symm
  | none =>
    rw [Option.none_or, foldl_token?, bracketsBehind_opening ho]
    rfl

/-! ## All lexemes -/

variable {ls : List Lexeme}

theorem mostOpen_filterMap_cons (stack : List Bracket) (l : Lexeme) (ls : List Lexeme) :
    mostOpen stack ((l :: ls).filterMap tokenKind?) =
      max stack.length (mostOpen (l.tokenKind?.toList.foldl bracketsBehind stack)
        (ls.filterMap tokenKind?)) := by
  cases hk : l.tokenKind? with
  | none =>
    rw [List.filterMap_cons_none hk]
    exact (Nat.max_eq_right (length_le_mostOpen stack _)).symm
  | some k =>
    rw [List.filterMap_cons_some hk]
    rfl

end

/-- The limit is kept if no more blocks are open inside one another anywhere. -/
theorem ofLexemes_tooDeep_eq_none_iff (source : String) {limit : Nat} {blocks : List Block}
    (hb : blocks.length ≤ limit) (ls : List Lexeme) :
    (ofLexemes source limit blocks ls).tooDeep = none ↔
      mostOpen (blocks.map Block.bracket) (ls.filterMap tokenKind?) ≤ limit := by
  induction ls generalizing blocks with
  | nil => exact iff_of_true rfl (by rwa [List.filterMap_nil, mostOpen, List.length_map])
  | cons l ls ih =>
    rw [mostOpen_filterMap_cons, List.length_map, Nat.max_le, and_iff_right hb]
    cases ho : l.opens? with
    | none =>
      rw [ofLexemes_of_opens_none ho, ← map_bracket_close ho]
      exact ih (Nat.le_trans (length_close_le l blocks) hb)
    | some bracket =>
      rw [bracketsBehind_opening ho]
      by_cases hfull : limit ≤ blocks.length
      · have hlength := length_le_mostOpen (bracket :: blocks.map Block.bracket) (ls.filterMap tokenKind?)
        rw [List.length_cons, List.length_map] at hlength
        rw [ofLexemes_of_le ho hfull]
        exact iff_of_false (by simp) (by omega)
      · rw [ofLexemes_of_lt ho (by omega)]
        have hopened : (⟨bracket, (l.quotedUrl? ls).isSome⟩ :: blocks : List Block).length ≤ limit :=
          Nat.lt_of_not_le hfull
        exact ih hopened

/-- The tokens open no more inside one another than the lexemes do, and no more than the limit allows. -/
theorem mostOpen_ofLexemes (source : String) {limit : Nat} {blocks : List Block}
    (hb : blocks.length ≤ limit) (ls : List Lexeme) :
    mostOpen (loudBrackets blocks) ((ofLexemes source limit blocks ls).tokens.map Token.kind) ≤
      min limit (mostOpen (blocks.map Block.bracket) (ls.filterMap tokenKind?)) := by
  have hlength {blocks : List Block} (hb : blocks.length ≤ limit) (ks : List TokenKind) :
      (loudBrackets blocks).length ≤ min limit (mostOpen (blocks.map Block.bracket) ks) := by
    have := length_le_mostOpen (blocks.map Block.bracket) ks
    rw [List.length_map] at this
    have := length_loudBrackets_le blocks
    omega
  induction ls generalizing blocks with
  | nil => exact hlength hb []
  | cons l ls ih =>
    -- one token or none, and then the rest inside other blocks
    have further {blocks' : List Block} (hb' : blocks'.length ≤ limit) (given : Option Token)
        (problems : List Problem)
        (hloud : loudBrackets blocks' =
          (given.toList.map Token.kind).foldl bracketsBehind (loudBrackets blocks))
        (hbehind : l.tokenKind?.toList.foldl bracketsBehind (blocks.map Block.bracket) =
          blocks'.map Block.bracket) :
        mostOpen (loudBrackets blocks)
            (((ofLexemes source limit blocks' ls).onto given.toList problems).tokens.map Token.kind) ≤
          min limit (mostOpen (blocks.map Block.bracket) ((l :: ls).filterMap tokenKind?)) := by
      have hfirst := hlength hb ((l :: ls).filterMap tokenKind?)
      have hrest := ih hb'
      rw [mostOpen_filterMap_cons, hbehind] at hfirst ⊢
      rw [hloud] at hrest
      cases given with
      | none => exact Nat.le_trans hrest (by omega)
      | some t => exact Nat.max_le.2 ⟨hfirst, Nat.le_trans hrest (by omega)⟩
    cases ho : l.opens? with
    | none =>
      have hc := Nat.le_trans (length_close_le l blocks) hb
      rw [ofLexemes_of_opens_none ho]
      cases hs : isSilent blocks with
      | true =>
        exact further hc none _ (loudBrackets_close_silent hs l) (map_bracket_close ho blocks).symm
      | false =>
        exact further hc l.token? _ (loudBrackets_close ho hs) (map_bracket_close ho blocks).symm
    | some bracket =>
      by_cases hfull : limit ≤ blocks.length
      · rw [ofLexemes_of_le ho hfull]
        exact hlength hb _
      · rw [ofLexemes_of_lt ho (by omega)]
        have hopened : (⟨bracket, (l.quotedUrl? ls).isSome⟩ :: blocks : List Block).length ≤ limit :=
          Nat.lt_of_not_le hfull
        exact further hopened _ _ (loudBrackets_opened ho blocks ls) (bracketsBehind_opening ho _)

end TokenStream

/-- A text keeps the nesting limit if its blocks do. -/
theorem tokenize_tooDeep_eq_none_iff {source : String} {text : List Char} {options : Options} :
    (tokenize source text options).tooDeep = none ↔ nestingDepth text ≤ options.maxNestingDepth := by
  rw [tokenize_tooDeep]
  exact TokenStream.ofLexemes_tooDeep_eq_none_iff source (Nat.zero_le _) _

/-- The tokens of a text open no more brackets inside one another than the text has blocks, and no more
    than the nesting limit allows. -/
theorem mostOpen_tokenize (source : String) (text : List Char) (options : Options) :
    mostOpen [] ((tokenize source text options).tokens.map Token.kind) ≤
      min options.maxNestingDepth (nestingDepth text) := by
  have hnone : ([] : List Block).length ≤ options.maxNestingDepth := Nat.zero_le _
  have h := TokenStream.mostOpen_ofLexemes source hnone (Lexeme.scan .start text)
  unfold tokenize
  dsimp only
  split
  · exact h
  · have heof (stack : List Bracket) : mostOpen stack [.eof] = stack.length := by
      rw [mostOpen, bracketsBehind_of_inert rfl rfl, mostOpen, Nat.max_self]
    rw [List.map_append, mostOpen_append]
    refine Nat.max_le.2 ⟨h, ?_⟩
    exact Nat.le_trans (Nat.le_of_eq (heof _)) (Nat.le_trans (foldl_length_le_mostOpen _ _) h)

end Stylesheet
