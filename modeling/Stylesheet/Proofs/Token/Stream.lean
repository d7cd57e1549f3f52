import Stylesheet.Proofs.Lexeme.Scan
import Stylesheet.Token.Stream

/-!
# From lexemes to tokens

A lexeme opens a block too many, which ends the work, or it gives its problems and at most one token in
front of what the others give (`ofLexemes_cons`). `tokenize` puts one `eof` behind the tokens, and no
lexeme gives another one, so the parser reads all of them (`ofLexemes_ne_eof`). Every lexeme reports its
own problems, also one that gives no token (`ofLexemes_problems`). The parts of a quoted address are gone through in silence, and behind them
the blocks are those in front of it (`ofLexemes_inner`).
-/

namespace Stylesheet

namespace TokenStream

open Lexeme

theorem token?_ne_eof {l : Lexeme} (h : l.kind ≠ .token .eof) : ∀ t ∈ l.token?, t.kind ≠ .eof := by
  intro t ht
  simp only [Lexeme.token?, Option.mem_def] at ht
  split at ht
  · rename_i k e
    cases ht
    intro he
    subst he
    exact h e
  · cases ht
    simp
  · cases ht
    simp
  all_goals contradiction

/-- The token of a quoted address, and what it is made of. -/
theorem quotedUrl?_eq {l : Lexeme} {ls : List Lexeme} {t : Token} (h : l.quotedUrl? ls = some t) :
    l.opens? = some .paren ∧ ∃ value inner, quotedAddress? ls = some (value, inner) ∧
      t = ⟨.url value, String.join ((l :: inner).map Lexeme.text),
        ⟨l.span.start, ((l :: inner).getLast (List.cons_ne_nil l inner)).span.stop⟩⟩ := by
  unfold quotedUrl? at h
  split at h
  · rename_i name hk
    split at h
    · obtain ⟨⟨value, inner⟩, e, ht⟩ := Option.map_eq_some_iff.1 h
      refine ⟨?_, value, inner, e, ht.symm⟩
      unfold Lexeme.opens?
      rw [hk]
      rfl
    · contradiction
  · contradiction

theorem problems_of_opens {l : Lexeme} {bracket : Bracket} (h : l.opens? = some bracket)
    (source : String) : l.problems source = [] := by
  unfold Lexeme.opens? at h
  unfold Lexeme.problems
  split at h
  · rename_i k e
    rw [e]
    cases k <;> first | rfl | contradiction
  · contradiction

/-! ## One lexeme -/

section

variable {source : String} {limit : Nat} {blocks : List Block} {l : Lexeme} {ls : List Lexeme}
  {bracket : Bracket}

theorem ofLexemes_of_opens_none (ho : l.opens? = none) :
    ofLexemes source limit blocks (l :: ls) = (ofLexemes source limit (close l blocks) ls).onto
      (if isSilent blocks then [] else l.token?.toList) (l.problems source) := by
  rw [ofLexemes, ho]

/-- A block too many ends the work. -/
theorem ofLexemes_of_le (ho : l.opens? = some bracket) (hb : limit ≤ blocks.length) :
    ofLexemes source limit blocks (l :: ls) = ⟨[], [], some ⟨limit, l.span.start⟩⟩ := by
  rw [ofLexemes, ho]
  exact if_pos hb

/-- Any other block is opened, by the token of a quoted address or by that of its bracket. -/
theorem ofLexemes_of_lt (ho : l.opens? = some bracket) (hb : blocks.length < limit) :
    ofLexemes source limit blocks (l :: ls) =
      (ofLexemes source limit (⟨bracket, (l.quotedUrl? ls).isSome⟩ :: blocks) ls).onto
        ((l.quotedUrl? ls).or l.token?).toList [] := by
  rw [ofLexemes, ho]
  refine (if_neg (Nat.not_le_of_lt hb)).trans ?_
  cases l.quotedUrl? ls with
  | none => rfl
  | some token => rfl

variable (source limit blocks l ls)

/-- A lexeme ends the work, or it gives its problems and at most one token in front of the rest: its own,
    or that of the address which it begins. -/
theorem ofLexemes_cons :
    ofLexemes source limit blocks (l :: ls) = ⟨[], [], some ⟨limit, l.span.start⟩⟩ ∨
      ∃ (blocks' : List Block) (given : Option Token),
        (given = none ∨ given = l.token? ∨ given = l.quotedUrl? ls) ∧
          ofLexemes source limit blocks (l :: ls) =
            (ofLexemes source limit blocks' ls).onto given.toList (l.problems source) := by
  cases ho : l.opens? with
  | none =>
    rw [ofLexemes_of_opens_none ho]
    cases isSilent blocks with
    | true => exact Or.inr ⟨_, none, Or.inl rfl, rfl⟩
    | false => exact Or.inr ⟨_, l.token?, Or.inr (Or.inl rfl), rfl⟩
  | some bracket =>
    by_cases hb : limit ≤ blocks.length
    · exact Or.inl (ofLexemes_of_le ho hb)
    · rw [ofLexemes_of_lt ho (by omega), problems_of_opens ho]
      cases l.quotedUrl? ls with
      | none => exact Or.inr ⟨_, l.token?, Or.inr (Or.inl rfl), rfl⟩
      | some token => exact Or.inr ⟨_, some token, Or.inr (Or.inr rfl), rfl⟩

end

/-! ## All lexemes -/

/-- What holds of the tokens of lexemes, and of every address, holds of all tokens. -/
theorem ofLexemes_forall {P : Token → Prop} (source : String) (limit : Nat) (blocks : List Block)
    (ls : List Lexeme) (hl : ∀ l ∈ ls, ∀ t ∈ l.token?, P t)
    (hu : ∀ value text span, P ⟨.url value, text, span⟩) :
    ∀ t ∈ (ofLexemes source limit blocks ls).tokens, P t := by
  induction ls generalizing blocks with
  | nil => exact nofun
  | cons l ls ih =>
    obtain ⟨hfirst, hrest⟩ := List.forall_mem_cons.1 hl
    obtain e | ⟨blocks', given, hg, e⟩ := ofLexemes_cons source limit blocks l ls
    · rw [e]
      exact nofun
    · rw [e]
      intro t ht
      rcases List.mem_append.1 ht with ht | ht
      · rcases hg with rfl | rfl | rfl
        · contradiction
        · exact hfirst t (Option.mem_toList.1 ht)
        · obtain ⟨-, value, inner, -, rfl⟩ := quotedUrl?_eq (Option.mem_toList.1 ht)
          exact hu _ _ _
      · exact ih blocks' hrest t ht

theorem ofLexemes_ne_eof (source : String) (limit : Nat) (blocks : List Block) (ls : List Lexeme)
    (h : ∀ l ∈ ls, l.kind ≠ .token .eof) :
    ∀ t ∈ (ofLexemes source limit blocks ls).tokens, t.kind ≠ .eof :=
  ofLexemes_forall source limit blocks ls (fun l hl => token?_ne_eof (h l hl)) (by simp)

/-- Every lexeme reports what is wrong with it, in order. -/
theorem ofLexemes_problems {source : String} {limit : Nat} {blocks : List Block} {ls : List Lexeme}
    (h : (ofLexemes source limit blocks ls).tooDeep = none) :
    (ofLexemes source limit blocks ls).problems = ls.flatMap (Lexeme.problems source) := by
  induction ls generalizing blocks with
  | nil => rfl
  | cons l ls ih =>
    obtain e | ⟨blocks', given, -, e⟩ := ofLexemes_cons source limit blocks l ls
    · rw [e] at h
      contradiction
    · rw [e] at h ⊢
      exact congrArg _ (ih h)

/-- The work ends at one of the lexemes, or with the last one. -/
theorem ofLexemes_tooDeep {source : String} {limit : Nat} {blocks : List Block} {ls : List Lexeme}
    {d : TooDeep} (h : (ofLexemes source limit blocks ls).tooDeep = some d) :
    ∃ l ∈ ls, d = ⟨limit, l.span.start⟩ := by
  induction ls generalizing blocks with
  | nil => contradiction
  | cons l ls ih =>
    obtain e | ⟨blocks', given, -, e⟩ := ofLexemes_cons source limit blocks l ls
    · rw [e] at h
      cases h
      exact ⟨l, List.mem_cons_self, rfl⟩
    · rw [e] at h
      obtain ⟨m, hm, hd⟩ := ih h
      exact ⟨m, List.mem_cons_of_mem l hm, hd⟩

/-! ## Quoted addresses -/

theorem close_eq_self {l : Lexeme} (h : ∀ b, l.closes b = false) (blocks : List Block) :
    close l blocks = blocks := by
  cases blocks with
  | nil => rfl
  | cons b outer => rw [close, h, if_neg Bool.false_ne_true]

/-- In a silent block, a lexeme that neither opens nor closes a block only reports its problems. -/
theorem ofLexemes_silent {source : String} {limit : Nat} {b : Block} {outer : List Block}
    (hb : b.silent = true) {l : Lexeme} (ho : l.opens? = none) (hc : ∀ b, l.closes b = false)
    (ls : List Lexeme) :
    ofLexemes source limit (b :: outer) (l :: ls) =
      (ofLexemes source limit (b :: outer) ls).onto [] (l.problems source) := by
  rw [ofLexemes_of_opens_none ho, close_eq_self hc, isSilent, hb, if_pos rfl]

theorem onto_onto (ts us : List Token) (ps qs : List Problem) (s : TokenStream) :
    (s.onto us qs).onto ts ps = s.onto (ts ++ us) (ps ++ qs) := by
  simp only [onto, List.append_assoc]

theorem opens?_of_isIgnorable {l : Lexeme} (h : l.isIgnorable = true) : l.opens? = none := by
  unfold isIgnorable at h
  unfold Lexeme.opens?
  split at h
  · rename_i k e
    rw [e, eq_of_beq h]
    rfl
  · rename_i e
    rw [e]
  · rename_i e
    rw [e]
  · rename_i e
    rw [e]
  all_goals contradiction

theorem closes_of_isIgnorable {l : Lexeme} (h : l.isIgnorable = true) (b : Bracket) :
    l.closes b = false := by
  unfold closes
  rw [beq_eq_false_iff_ne]
  intro e
  unfold isIgnorable at h
  rw [e] at h
  contradiction

theorem opens?_of_stringValue {l : Lexeme} {value : String} (h : l.stringValue? = some value) :
    l.opens? = none := by
  unfold stringValue? at h
  unfold Lexeme.opens?
  split at h
  · rename_i e
    rw [e]
    rfl
  · rename_i e
    rw [e]
  · contradiction

theorem closes_of_stringValue {l : Lexeme} {value : String} (h : l.stringValue? = some value)
    (b : Bracket) : l.closes b = false := by
  unfold closes
  rw [beq_eq_false_iff_ne]
  intro e
  unfold stringValue? at h
  rw [e] at h
  contradiction

theorem ofLexemes_ignorable {source : String} {limit : Nat} {b : Block} {outer : List Block}
    (hb : b.silent = true) {run : List Lexeme} (hr : ∀ l ∈ run, l.isIgnorable = true)
    (ls : List Lexeme) :
    ofLexemes source limit (b :: outer) (run ++ ls) =
      (ofLexemes source limit (b :: outer) ls).onto [] (run.flatMap (Lexeme.problems source)) := by
  induction run with
  | nil => rfl
  | cons l run ih =>
    have hl := hr l List.mem_cons_self
    rw [List.cons_append,
      ofLexemes_silent hb (opens?_of_isIgnorable hl) (closes_of_isIgnorable hl),
      ih fun m hm => hr m (List.mem_cons_of_mem l hm), onto_onto, List.flatMap_cons,
      List.append_nil]

/-- What stands behind the function of a quoted address. -/
theorem quotedAddress?_eq {ls inner : List Lexeme} {value : String}
    (h : quotedAddress? ls = some (value, inner)) :
    ∃ front s mid last more, ls = inner ++ more ∧ inner = front ++ s :: (mid ++ [last]) ∧
      (∀ l ∈ front, l.isIgnorable = true) ∧ s.stringValue? = some value ∧
      (∀ l ∈ mid, l.isIgnorable = true) ∧ last.closes .paren = true := by
  have taken (ls : List Lexeme) : ∀ l ∈ ls.takeWhile isIgnorable, l.isIgnorable = true :=
    List.all_eq_true.1 List.all_takeWhile
  unfold quotedAddress? at h
  split at h
  · contradiction
  · rename_i s behind e
    split at h
    · rename_i v last rest hv e'
      split at h
      · rename_i hc
        obtain ⟨rfl, rfl⟩ := Prod.mk.inj (Option.some.inj h)
        have hb : behind = behind.takeWhile isIgnorable ++ last :: rest := by
          rw [← e', List.takeWhile_append_dropWhile]
        have hls : ls = (ls.takeWhile isIgnorable ++
            s :: (behind.takeWhile isIgnorable ++ [last])) ++ rest :=
          calc ls = ls.takeWhile isIgnorable ++ s :: behind := by
                rw [← e, List.takeWhile_append_dropWhile]
            _ = _ := by
                rw [List.append_assoc, List.cons_append, List.append_assoc, List.singleton_append,
                  ← hb]
        have hn : ls.length - rest.length = (ls.takeWhile isIgnorable ++
            s :: (behind.takeWhile isIgnorable ++ [last])).length := by
          have := congrArg List.length hls
          rw [List.length_append] at this
          omega
        have hi : ls.take (ls.length - rest.length) = ls.takeWhile isIgnorable ++
            s :: (behind.takeWhile isIgnorable ++ [last]) := by
          rw [hn]
          exact (congrArg _ hls).trans List.take_left
        exact ⟨_, s, _, last, rest, by rw [hi]; exact hls, hi, taken ls, hv, taken behind, hc⟩
      · contradiction
    · contradiction

/-- Behind a quoted address the blocks are those in front of it. -/
theorem ofLexemes_inner (source : String) (limit : Nat) (outer : List Block)
    {ls inner : List Lexeme} {value : String} (h : quotedAddress? ls = some (value, inner)) :
    ∃ more, ls = inner ++ more ∧
      ofLexemes source limit (⟨.paren, true⟩ :: outer) ls =
        (ofLexemes source limit outer more).onto [] (inner.flatMap (Lexeme.problems source)) := by
  obtain ⟨front, s, mid, last, more, e, hi, hf, hs, hm, hc⟩ := quotedAddress?_eq h
  refine ⟨more, e, ?_⟩
  have hk : last.kind = .token (.closing .paren) := eq_of_beq hc
  have hlast : ofLexemes source limit (⟨.paren, true⟩ :: outer) (last :: more) =
      (ofLexemes source limit outer more).onto [] (last.problems source) := by
    have ho : last.opens? = none := by
      unfold Lexeme.opens?
      rw [hk]
      rfl
    rw [ofLexemes_of_opens_none ho, close, hc, if_pos rfl, isSilent, if_pos rfl]
  have hl : ls = front ++ s :: (mid ++ last :: more) := by
    rw [e, hi]
    simp only [List.append_assoc, List.cons_append, List.nil_append]
  -- the silent block stays open up to its parenthesis, and nothing in it gives a token
  rw [hl, ofLexemes_ignorable rfl hf,
    ofLexemes_silent rfl (opens?_of_stringValue hs) (closes_of_stringValue hs),
    ofLexemes_ignorable rfl hm, hlast, onto_onto, onto_onto, onto_onto, hi]
  simp only [List.flatMap_append, List.flatMap_cons, List.flatMap_nil, List.append_nil,
    List.append_assoc]

end TokenStream

/-- Where all lexemes of a text end. -/
def lexemeEnd (text : List Char) : Position :=
  ((Lexeme.scan .start text).getLast?.map (·.span.stop)).getD .start

section

variable (source : String) (text : List Char) (options : Options)

theorem tokenize_problems : (tokenize source text options).problems =
    (TokenStream.ofLexemes source options.maxNestingDepth [] (Lexeme.scan .start text)).problems := by
  unfold tokenize
  dsimp only
  split
  · rfl
  · rfl

theorem tokenize_tooDeep : (tokenize source text options).tooDeep =
    (TokenStream.ofLexemes source options.maxNestingDepth [] (Lexeme.scan .start text)).tooDeep := by
  unfold tokenize
  dsimp only
  split
  · rfl
  · rfl

end

/-- Where the nesting limit is kept, the tokens are those of the lexemes, with `eof` behind them. -/
theorem tokenize_eq {source : String} {text : List Char} {options : Options}
    (h : (tokenize source text options).tooDeep = none) :
    let stream := TokenStream.ofLexemes source options.maxNestingDepth [] (Lexeme.scan .start text)
    stream.tooDeep = none ∧
      tokenize source text options =
        ⟨stream.tokens ++ [TokenStream.eofAt (lexemeEnd text)], stream.problems, none⟩ := by
  intro stream
  have hn : stream.tooDeep = none := by
    rw [tokenize_tooDeep] at h
    exact h
  refine ⟨hn, ?_⟩
  show (if stream.tooDeep.isSome then stream else _) = _
  rw [hn, if_neg (by decide), lexemeEnd]

end Stylesheet
