import Stylesheet.Proofs.Grammar.Numbered
import Stylesheet.Proofs.Lexeme.Content
import Stylesheet.Proofs.Token.Stream

/-!
# Functions that bear the name of an address

A string between the parentheses of `url` is an address and not the argument of a function. So where
a function of that name is left among the tokens, a string stands behind it and something else than
the closing parenthesis behind the string (`ofLexemes_quotedUrls`), blanks aside (`visible`). With
what the tokens hold by themselves, this is what the grammar may rely on (`Genuine`).
-/

namespace Stylesheet

/-- Tokens without the blanks. -/
def visible (ks : List TokenKind) : List TokenKind := ks.filter (· != .whitespace)

theorem visible_append (ks js : List TokenKind) : visible (ks ++ js) = visible ks ++ visible js :=
  List.filter_append ks js

/-- Behind a function that bears the name of an address stands a string, which is not all that it is
    called with. -/
def QuotedUrls (ks : List TokenKind) : Prop :=
  ∀ front name k behind, ks = front ++ .function name :: k :: behind →
    sameWord name "url" = true → (∃ s, k = .string s) ∧ behind.head? ≠ some (.closing .paren)

namespace QuotedUrls

theorem nil : QuotedUrls [] := by
  intro front name k behind e
  simp at e

/-- A stretch of tokens is as the whole. -/
theorem infix_of {ks js : List TokenKind} (h : QuotedUrls ks) (hs : js <:+: ks) :
    QuotedUrls js := by
  obtain ⟨a, b, rfl⟩ := hs
  intro front name k behind e hu
  obtain ⟨hk, hb⟩ := h (a ++ front) name k (behind ++ b) (by rw [e]; simp) hu
  refine ⟨hk, fun hc => hb ?_⟩
  rw [List.head?_append, hc]
  rfl

theorem cons {k : TokenKind} {ks : List TokenKind} (h : QuotedUrls ks)
    (hk : ∀ name j behind, k = .function name → sameWord name "url" = true → ks = j :: behind →
      (∃ s, j = .string s) ∧ behind.head? ≠ some (.closing .paren)) : QuotedUrls (k :: ks) := by
  intro front name j behind e hu
  cases front with
  | nil =>
    obtain ⟨hf, hrest⟩ := List.cons.inj e
    exact hk name j behind hf hu hrest
  | cons f front => exact h front name j behind (List.cons.inj e).2 hu

/-- A token that is no function leaves the tokens behind it as they are. -/
theorem cons_visible {k : TokenKind} {ks : List TokenKind} (h : QuotedUrls ks)
    (hk : ∀ name, k ≠ .function name) : QuotedUrls (visible [k] ++ ks) := by
  by_cases hw : k = .whitespace
  · rw [hw]
    exact h
  · have hv : visible [k] = [k] := by simp [visible, hw]
    rw [hv]
    exact h.cons fun name _ _ e => absurd e (hk name)

end QuotedUrls

namespace TokenStream

open Lexeme

variable {source : String} {limit : Nat}

/-- The kinds of the tokens of lexemes, without the blanks. -/
def visibleKinds (source : String) (limit : Nat) (blocks : List Block) (ls : List Lexeme) :
    List TokenKind :=
  visible ((ofLexemes source limit blocks ls).tokens.map Token.kind)

/-- Inside a block, what is of no weight gives no visible token. -/
theorem visibleKinds_dropWhile {b : Block} (hb : b.silent = false) (outer : List Block)
    (ls : List Lexeme) :
    visibleKinds source limit (b :: outer) ls =
      visibleKinds source limit (b :: outer) (ls.dropWhile isIgnorable) := by
  induction ls with
  | nil => rfl
  | cons l ls ih =>
    rw [List.dropWhile_cons]
    split
    · rename_i hl
      rw [← ih, visibleKinds, ofLexemes, opens?_of_isIgnorable hl]
      dsimp only
      rw [close_eq_self (closes_of_isIgnorable hl), isSilent, hb, onto, List.map_append,
        visible_append]
      have hnone : visible (l.token?.toList.map Token.kind) = [] := by
        unfold isIgnorable at hl
        unfold Lexeme.token?
        split at hl
        · rename_i k e
          rw [e, eq_of_beq hl]
          rfl
        all_goals first | (rename_i e; rw [e]; rfl) | contradiction
      rw [if_neg Bool.false_ne_true, hnone, List.nil_append]
      rfl
    · rfl

/-- Inside a block, a string gives its token. -/
theorem visibleKinds_string {b : Block} (hb : b.silent = false) (outer : List Block) {s : Lexeme}
    {value : String} (hs : s.stringValue? = some value) (ls : List Lexeme) :
    visibleKinds source limit (b :: outer) (s :: ls) =
      .string value :: visibleKinds source limit (b :: outer) ls := by
  have htoken : s.token?.toList.map Token.kind = [.string value] := by
    unfold stringValue? at hs
    unfold Lexeme.token?
    split at hs
    · rename_i e
      rw [e]
      cases hs
      rfl
    · rename_i e
      rw [e]
      cases hs
      rfl
    · contradiction
  rw [visibleKinds, ofLexemes, opens?_of_stringValue hs]
  dsimp only
  rw [close_eq_self (closes_of_stringValue hs), isSilent, hb, onto, List.map_append,
    visible_append, if_neg Bool.false_ne_true, htoken]
  rfl

/-- Inside a block, a lexeme of weight that does not close it gives a token that is no parenthesis. -/
theorem visibleKinds_head {b : Block} (hb : b.silent = false) (outer : List Block) {l : Lexeme}
    (hi : l.isIgnorable = false) (hc : l.closes .paren = false) (ls : List Lexeme) :
    (visibleKinds source limit (b :: outer) (l :: ls)).head? ≠ some (.closing .paren) := by
  have htoken : ∃ k, l.token?.toList.map Token.kind = [k] ∧ k ≠ .whitespace ∧
      k ≠ .closing .paren := by
    unfold isIgnorable at hi
    unfold closes at hc
    unfold Lexeme.token?
    split at hi
    · rename_i k e
      rw [e] at hc ⊢
      refine ⟨k, rfl, by simpa using hi, fun he => ?_⟩
      rw [he] at hc
      simp at hc
    any_goals contradiction
    · rename_i e
      rw [e]
      exact ⟨_, rfl, by simp, by simp⟩
    · rename_i e
      rw [e]
      exact ⟨_, rfl, by simp, by simp⟩
  obtain ⟨k, ht, hw, hp⟩ := htoken
  have hv : visible [k] = [k] := by simp [visible, hw]
  rw [visibleKinds, ofLexemes]
  split
  · rw [isSilent, hb, onto, List.map_append, visible_append, if_neg Bool.false_ne_true, ht, hv]
    simpa using hp
  · split
    · simp [visible]
    · split
      · rename_i t e
        obtain ⟨-, value, inner, -, rfl⟩ := quotedUrl?_eq e
        rw [onto, List.map_append, visible_append]
        simp [visible]
      · rw [onto, List.map_append, visible_append, ht, hv]
        simpa using hp

/-- What stands behind a function that bears the name of an address and begins none. -/
theorem visibleKinds_function {ls : List Lexeme} {s : Lexeme} {behind : List Lexeme}
    (hs : ls.dropWhile isIgnorable = s :: behind) (hv : s.stringValue?.isSome = true)
    (hq : quotedAddress? ls = none) {b : Block} (hb : b.silent = false) (outer : List Block)
    {j : TokenKind} {js : List TokenKind}
    (e : visibleKinds source limit (b :: outer) ls = j :: js) :
    (∃ s, j = .string s) ∧ js.head? ≠ some (.closing .paren) := by
  obtain ⟨value, hv⟩ := Option.isSome_iff_exists.1 hv
  rw [visibleKinds_dropWhile hb, hs, visibleKinds_string hb outer hv] at e
  obtain ⟨rfl, rfl⟩ := List.cons.inj e
  refine ⟨⟨value, rfl⟩, ?_⟩
  rw [visibleKinds_dropWhile hb]
  rw [quotedAddress?, hs] at hq
  dsimp only at hq
  cases hd : behind.dropWhile isIgnorable with
  | nil => simp [visibleKinds, ofLexemes, visible]
  | cons l ls =>
    have hi : l.isIgnorable = false := by
      have h := List.head?_dropWhile_not isIgnorable behind
      rw [hd] at h
      simpa using h
    have hc : l.closes .paren = false := by
      cases hc : l.closes .paren with
      | false => rfl
      | true => simp [hv, hd, hc] at hq
    exact visibleKinds_head hb outer hi hc ls

/-- A lexeme that opens nothing gives no function. -/
theorem ne_function_of_opens? {l : Lexeme} (ho : l.opens? = none) {t : Token}
    (ht : l.token? = some t) (name : String) : t.kind ≠ .function name := by
  intro e
  unfold Lexeme.token? at ht
  unfold Lexeme.opens? at ho
  split at ht <;> cases ht
  · rename_i k hk
    rw [hk, show k = .function name from e] at ho
    contradiction
  · contradiction
  · contradiction

/-- A lexeme that opens a block is one token, which is no blank. -/
theorem kind_of_opens? {l : Lexeme} {bracket : Bracket} (ho : l.opens? = some bracket) :
    ∃ k, l.kind = .token k ∧ visible (l.token?.toList.map Token.kind) = [k] := by
  unfold Lexeme.opens? at ho
  split at ho
  · rename_i k hk
    refine ⟨k, hk, ?_⟩
    have ht : l.token?.toList.map Token.kind = [k] := by
      rw [Lexeme.token?, hk]
      rfl
    rw [ht]
    cases k <;> first | rfl | contradiction
  · contradiction

/-- Of the functions that bear the name of an address, those are left that begin none. -/
theorem ofLexemes_quotedUrls (blocks : List Block) {ls : List Lexeme} (h : UrlsQuoted ls) :
    QuotedUrls (visibleKinds source limit blocks ls) := by
  induction ls generalizing blocks with
  | nil => exact .nil
  | cons l ls ih =>
    obtain ⟨hl, hls⟩ := h
    rw [visibleKinds, ofLexemes]
    split
    · rename_i ho
      have hrest := ih (close l blocks) hls
      rw [onto, List.map_append, visible_append]
      split
      · exact hrest
      · cases ht : l.token? with
        | none => exact hrest
        | some t => exact hrest.cons_visible (ne_function_of_opens? ho ht)
    · rename_i bracket ho
      split
      · exact .nil
      · split
        · rename_i t e
          obtain ⟨-, value, inner, -, rfl⟩ := quotedUrl?_eq e
          rw [onto, List.map_append, visible_append]
          exact (ih _ hls).cons_visible fun name e => by contradiction
        · rename_i hq
          obtain ⟨k, hk, hv⟩ := kind_of_opens? ho
          rw [onto, List.map_append, visible_append, hv]
          refine (ih (⟨bracket, false⟩ :: blocks) hls).cons fun name j behind e hu ejs => ?_
          rw [e] at hk
          obtain ⟨s, more, hs, hstring⟩ := hl name hk hu
          rw [quotedUrl?, hk] at hq
          dsimp only at hq
          rw [if_pos hu, Option.map_eq_none_iff] at hq
          exact visibleKinds_function hs hstring hq rfl blocks ejs

end TokenStream

/-- Tokens as a text gives them. -/
structure Genuine (s : Tokens) : Prop where
  filled : ∀ t ∈ s, t.kind.FilledBy t.token.text.toList
  quotedUrls : QuotedUrls (visible (s.map Placed.kind))

theorem Genuine.infix_of {s u : Tokens} (h : Genuine s) (hu : u <:+: s) : Genuine u where
  filled := fun t ht => h.filled t (hu.subset ht)
  quotedUrls := h.quotedUrls.infix_of ((hu.map Placed.kind).filter _)

/-- The tokens of a text are genuine. -/
theorem genuine_tokenize {source : String} {text : List Char} {options : Options}
    (h : (tokenize source text options).tooDeep = none) :
    Genuine (Grammar.numbered (tokenize source text options).tokens) := by
  obtain ⟨-, e⟩ := tokenize_eq h
  have hne := TokenStream.ofLexemes_ne_eof source options.maxNestingDepth [] _
    (Lexeme.scan_ne_eof .start text)
  have htokens := Grammar.numbered_append_eof hne
    (show (TokenStream.eofAt (lexemeEnd text)).kind = .eof from rfl)
  rw [e]
  generalize Grammar.numbered _ = s at htokens ⊢
  constructor
  · intro t ht
    have hm : t.token ∈ s.map Placed.token := List.mem_map_of_mem ht
    rw [htokens] at hm
    exact TokenStream.ofLexemes_forall (P := fun t => t.kind.FilledBy t.text.toList) source
      options.maxNestingDepth [] _
      (fun l hl => Lexeme.token?_filledBy (Lexeme.scan_filledBy .start text l hl))
      (fun _ _ _ => trivial) t.token hm
  · have hk : s.map Placed.kind = (s.map Placed.token).map Token.kind := by
      rw [List.map_map]
      rfl
    rw [hk, htokens]
    exact TokenStream.ofLexemes_quotedUrls [] (Lexeme.urlsQuoted_scan .start text)

end Stylesheet
