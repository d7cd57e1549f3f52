import Stylesheet.Proofs.Tree.Named

/-!
# What stands behind the first `eof`

No production is given what stands behind the first `eof`, and a tree names no token there, so neither
the tree nor the document that is made of it changes with it. That reading through a cursor gives that
tree from all of the tokens is `Cursor.parse_eq`.
-/

namespace Stylesheet

open Grammar

variable {ts : List Token} (h : ∀ t ∈ ts, t.kind ≠ .eof) {stop : Token} (hs : stop.kind = .eof)
  (source : String) (behind : List Token)

include h hs

theorem setting_append : setting source (ts ++ stop :: behind) = ⟨source, ts.length, stop.span⟩ := by
  have hl : (numbered (ts ++ stop :: behind)).length = ts.length := by
    rw [numbered_append h hs, List.length_map, List.length_zipIdx]
  rw [setting, hl]
  simp

/-- The tree and the problems. -/
theorem parseTokens_append :
    parseTokens source (ts ++ stop :: behind) = parseTokens source (ts ++ [stop]) := by
  rw [parseTokens, parseTokens, setting_append h hs, setting_append h hs, numbered_append h hs,
    numbered_append h hs]

/-- The document and what was noted. -/
theorem buildDocument_append (options : Options) :
    buildDocument source (ts ++ stop :: behind)
        (parseTokens source (ts ++ stop :: behind)).tree options =
      buildDocument source (ts ++ [stop]) (parseTokens source (ts ++ [stop])).tree options := by
  rw [parseTokens_append h hs]
  apply buildDocument_agree
  intro i hi
  have hl := parseTokens_named source (ts ++ [stop]) i hi
  rw [setting_append h hs] at hl
  rw [show ts ++ stop :: behind = (ts ++ [stop]) ++ behind by simp, List.getElem?_append_left]
  rw [List.length_append, List.length_singleton]
  exact Nat.lt_succ_of_le hl

end Stylesheet
