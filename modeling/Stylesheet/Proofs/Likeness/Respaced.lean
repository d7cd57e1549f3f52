import Stylesheet.Proofs.Grammar.Numbered
import Stylesheet.Proofs.Likeness.Statement

/-!
# Respaced tokens

Two lists of tokens are respacings of each other if they differ only in their places and in the runs of
blanks: how many blanks a run has, and how they are written. What the grammar reads of one list is then
like what it reads of the other (`Respaced.inputLike`).
-/

namespace Stylesheet

open Grammar

/-- A token without its place, and without its text if it is blank. -/
def Token.unplaced (t : Token) : Token :=
  ⟨t.kind, if t.kind = .whitespace then "" else t.text, .nowhere⟩

theorem Token.unplaced_kind (t : Token) : t.unplaced.kind = t.kind := rfl

theorem Token.unplaced_text {t : Token} (h : t.kind ≠ .whitespace) : t.unplaced.text = t.text :=
  if_neg h

/-- The same tokens in the same order, places aside, with runs of blanks between the same ones. -/
inductive Respaced : List Token → List Token → Prop
  | nil : Respaced [] []
  | token {t u : Token} {ts us : List Token} (hw : t.kind ≠ .whitespace) (hk : t.kind = u.kind)
      (ht : t.text = u.text) (h : Respaced ts us) : Respaced (t :: ts) (u :: us)
  | blanks {b b' ts us : List Token} (hb : b ≠ [] ∧ ∀ t ∈ b, t.kind = .whitespace)
      (hb' : b' ≠ [] ∧ ∀ t ∈ b', t.kind = .whitespace) (h : Respaced ts us) :
      Respaced (b ++ ts) (b' ++ us)

namespace Respaced

theorem refl (ts : List Token) : Respaced ts ts := by
  induction ts with
  | nil => exact .nil
  | cons t ts ih =>
    by_cases hw : t.kind = .whitespace
    · have hb : [t] ≠ [] ∧ ∀ u ∈ [t], u.kind = .whitespace := by simp [hw]
      exact .blanks hb hb ih
    · exact .token hw rfl rfl ih

theorem append {ts us ts' us' : List Token} (h : Respaced ts us) (h' : Respaced ts' us') :
    Respaced (ts ++ ts') (us ++ us') := by
  induction h with
  | nil => exact h'
  | token hw hk ht _ ih => exact .token hw hk ht ih
  | blanks hb hb' _ ih =>
    rw [List.append_assoc, List.append_assoc]
    exact .blanks hb hb' ih

end Respaced

/-- Numbers of blanks, at least one. -/
def AreBlank (ts : List Token) (is : List Nat) : Prop :=
  is ≠ [] ∧ ∀ i ∈ is, ts[i]?.map Token.kind = some .whitespace

theorem AreBlank.head {ts : List Token} {is : List Nat} (h : AreBlank ts is) :
    ∃ i is', is = i :: is' ∧ ts[i]?.map Token.unplaced = some ⟨.whitespace, "", .nowhere⟩ := by
  obtain ⟨hne, h⟩ := h
  cases is with
  | nil => contradiction
  | cons i is =>
    obtain ⟨t, ht, hk⟩ := Option.map_eq_some_iff.1 (h i List.mem_cons_self)
    refine ⟨i, is, rfl, ?_⟩
    rw [ht, Option.map_some, Token.unplaced, hk]
    rfl

/-- Tokens of two lists that are the same, places aside; any run of blanks stands for any other. -/
def respacing (ts us : List Token) : Likeness where
  index i j := ts[i]?.map Token.unplaced = us[j]?.map Token.unplaced
  span _ _ := True
  span_stop _ := trivial
  run is js := AreBlank ts is ∧ AreBlank us js
  run_head h := by
    obtain ⟨i, is, rfl, hi⟩ := h.1.head
    obtain ⟨j, js, rfl, hj⟩ := h.2.head
    exact ⟨i, is, j, js, rfl, rfl, hi.trans hj.symm⟩

namespace Grammar

/-- The tokens in front of the first `eof`, numbered from some number on. -/
def numberedFrom (n : Nat) (ts : List Token) : Tokens :=
  ((ts.zipIdx n).map fun p => (⟨p.2, p.1⟩ : Placed)).takeWhile fun t => !t.token.isEof

theorem numberedFrom_cons (n : Nat) (t : Token) (ts : List Token) :
    numberedFrom n (t :: ts) = if t.kind = .eof then [] else ⟨n, t⟩ :: numberedFrom (n + 1) ts := by
  rw [numberedFrom, List.zipIdx_cons, List.map_cons, List.takeWhile_cons]
  by_cases h : t.kind = .eof
  · simp [h, Token.isEof]
  · simp [h, Token.isEof, numberedFrom]

theorem numberedFrom_append {b : List Token} (hb : ∀ t ∈ b, t.kind ≠ .eof) (n : Nat)
    (ts : List Token) : numberedFrom n (b ++ ts) =
      ((b.zipIdx n).map fun p => (⟨p.2, p.1⟩ : Placed)) ++ numberedFrom (n + b.length) ts := by
  induction b generalizing n with
  | nil => rfl
  | cons t b ih =>
    obtain ⟨ht, hb⟩ := List.forall_mem_cons.1 hb
    rw [List.cons_append, numberedFrom_cons, if_neg ht, ih hb, List.length_cons, List.zipIdx_cons,
      List.map_cons, List.cons_append, Nat.add_right_comm, Nat.add_assoc]

end Grammar

namespace Likeness

/-- A run of blanks, numbered from its place in a list. -/
theorem blanks_placed {ts : List Token} {n : Nat} {b rest : List Token} (hn : ts.drop n = b ++ rest)
    (hb : b ≠ [] ∧ ∀ t ∈ b, t.kind = .whitespace) :
    Blank ((b.zipIdx n).map fun p => (⟨p.2, p.1⟩ : Placed)) ∧
      AreBlank ts (((b.zipIdx n).map fun p => (⟨p.2, p.1⟩ : Placed)).map Placed.index) := by
  refine ⟨fun t ht => ?_, fun h => hb.1 ?_, fun i hi => ?_⟩
  · obtain ⟨⟨u, i⟩, hu, rfl⟩ := List.mem_map.1 ht
    exact beq_iff_eq.2 (hb.2 u (List.fst_mem_of_mem_zipIdx hu))
  · simpa using h
  · obtain ⟨t, ht, rfl⟩ := List.mem_map.1 hi
    obtain ⟨⟨u, i⟩, hu, rfl⟩ := List.mem_map.1 ht
    obtain ⟨hle, hlt, -⟩ := List.mem_zipIdx hu
    have hget : ts[i]? = (b ++ rest)[i - n]? := by
      rw [← hn, List.getElem?_drop, Nat.add_sub_cancel' hle]
    show ts[i]?.map Token.kind = _
    rw [hget, List.getElem?_append_left (by omega), List.getElem?_eq_getElem (by omega),
      Option.map_some, hb.2 _ (List.getElem_mem _)]

end Likeness

namespace Respaced

open Likeness

variable {ts us : List Token}

/-- From some place on, in both lists: what is read is alike, and so is where it ends. -/
theorem inputLike_from {xs ys : List Token} (h : Respaced xs ys) {n m : Nat} (hn : ts.drop n = xs)
    (hm : us.drop m = ys) : (respacing ts us).InputLike (numberedFrom n xs) (numberedFrom m ys) ∧
      (respacing ts us).index (n + (numberedFrom n xs).length) (m + (numberedFrom m ys).length) := by
  -- blanks move the two places apart, so each list has its own
  induction h generalizing n m with
  | nil =>
    refine ⟨.nil, ?_⟩
    show ts[n]?.map _ = us[m]?.map _
    rw [List.getElem?_eq_none (List.drop_eq_nil_iff.1 hn),
      List.getElem?_eq_none (List.drop_eq_nil_iff.1 hm)]
  | @token t u xs ys hw hk ht h ih =>
    have ht' : ts[n]? = some t := by rw [← List.head?_drop, hn, List.head?_cons]
    have hu' : us[m]? = some u := by rw [← List.head?_drop, hm, List.head?_cons]
    have hindex : (respacing ts us).index n m := by
      show ts[n]?.map _ = us[m]?.map _
      rw [ht', hu', Option.map_some, Option.map_some, Token.unplaced, Token.unplaced, hk, ht]
    rw [numberedFrom_cons, numberedFrom_cons, ← hk]
    split
    · exact ⟨.nil, hindex⟩
    · have hxs : ts.drop (n + 1) = xs := by rw [← List.tail_drop, hn, List.tail_cons]
      have hys : us.drop (m + 1) = ys := by rw [← List.tail_drop, hm, List.tail_cons]
      obtain ⟨hinput, hstop⟩ := ih hxs hys
      refine ⟨.cons ⟨hk, fun _ => ht, hindex, trivial⟩ hw hinput, ?_⟩
      rw [List.length_cons, List.length_cons, ← Nat.add_assoc, ← Nat.add_assoc,
        Nat.add_right_comm n, Nat.add_right_comm m]
      exact hstop
  | @blanks b b' xs ys hb hb' h ih =>
    have hxs : ts.drop (n + b.length) = xs := by
      rw [← List.drop_drop, hn, List.drop_left]
    have hys : us.drop (m + b'.length) = ys := by
      rw [← List.drop_drop, hm, List.drop_left]
    obtain ⟨hinput, hstop⟩ := ih hxs hys
    have hblank := blanks_placed hn hb
    have hblank' := blanks_placed hm hb'
    rw [numberedFrom_append (fun t ht => by simp [hb.2 t ht]),
      numberedFrom_append (fun t ht => by simp [hb'.2 t ht])]
    refine ⟨.run ⟨hblank.1, hblank'.1, ⟨hblank.2, hblank'.2⟩, fun _ _ _ _ => trivial⟩ hinput, ?_⟩
    simpa [Nat.add_assoc] using hstop

theorem inputLike (h : Respaced ts us) :
    (respacing ts us).InputLike (numbered ts) (numbered us) :=
  (inputLike_from h (List.drop_zero) (List.drop_zero)).1

theorem settingLike (h : Respaced ts us) (source : String) :
    (respacing ts us).SettingLike (setting source ts) (setting source us) where
  source := rfl
  stopIndex := by
    have hstop := (inputLike_from h (List.drop_zero (l := ts)) (List.drop_zero (l := us))).2
    rw [Nat.zero_add, Nat.zero_add] at hstop
    exact hstop
  stopSpan := trivial

end Respaced

end Stylesheet
