import LambdaCalculus.Report.Basic

/-!
# The text of a diagnosis

A diagnosis cuts the expression of a report in three: what stands in front of the span, the span in
its colour, and what stands behind it. Without colour these are joined to the expression again,
wherever the span lies, so a diagnosis is the expression as it stands and a line that underlines the
span.
-/

namespace LambdaCalculus

namespace Text

theorem clip_le_clip {start stop : Int} (length : Nat) (h : 0 ≤ start) (hle : start ≤ stop) :
    clip length start ≤ clip length stop := by
  rw [clip, clip, if_neg (by omega), if_neg (by omega)]
  omega

/-- A text that is cut at two places is the three pieces put together. -/
theorem sliceTo_append_slice_append_sliceFrom (s : String) {start stop : Int} (h : 0 ≤ start)
    (hle : start ≤ stop) :
    String.ofList (sliceTo s.toList start) ++ String.ofList (slice s.toList start stop)
      ++ String.ofList (sliceFrom s.toList stop) = s := by
  have hclip := clip_le_clip s.toList.length h hle
  have hfront : s.toList.take (clip s.toList.length start)
      = (s.toList.take (clip s.toList.length stop)).take (clip s.toList.length start) := by
    rw [List.take_take, Nat.min_eq_left hclip]
  rw [sliceTo, slice, sliceFrom, hfront, ← String.ofList_append, ← String.ofList_append,
    List.take_append_drop, List.take_append_drop, String.ofList_toList]

end Text

namespace Report

/-- The line that underlines a span in the line above it: a caret at its first character and tildes
up to its end. -/
def underline (start stop : Nat) : String :=
  "  " ++ String.ofList (List.replicate start ' ' ++ '^' :: List.replicate (stop - start - 1) '~')

/-- Without colour a diagnosis is the expression and the line that underlines its span, each behind
two blanks. -/
theorem render_diagnosis {r : Report} {start stop : Nat} (hstart : r.start = start)
    (hstop : r.stop = stop)
    (hlt : start < stop) (colour : Colour) :
    (r.diagnosis colour).render false =
      "\n".intercalate ["  " ++ r.expr, underline start stop] := by
  have hmax : max r.stop (r.start + 1) = stop := by omega
  have hpieces := Text.sliceTo_append_slice_append_sliceFrom r.expr (Int.natCast_nonneg start)
    (Int.ofNat_le.mpr (Nat.le_of_lt hlt))
  have htildes : ((stop : Int) - start - 1).toNat = stop - start - 1 := by omega
  calc (r.diagnosis colour).render false
      = "  " ++
        (String.ofList (Text.sliceTo r.expr.toList start) ++
          String.ofList (Text.slice r.expr.toList start stop)
          ++ String.ofList (Text.sliceFrom r.expr.toList stop)) ++ "\n" ++
            underline start stop := by
        simp only [diagnosis, hmax]
        simp only [hstart, htildes, underline, Text.repeated, Int.toNat_natCast,
          Styled.render_append, Styled.render_plain, Styled.render_coloured, String.ofList_append,
          String.append_assoc]
    _ = "\n".intercalate ["  " ++ r.expr, underline start stop] := by
        rw [hpieces]
        rfl

/-- An expression of one line and its underline are two lines. -/
theorem splitOn_intercalate_underline {expr : String} (h : '\n' ∉ expr.toList) (start stop : Nat) :
    ("\n".intercalate ["  " ++ expr, underline start stop]).toList.splitOn '\n'
      = [("  " ++ expr).toList, (underline start stop).toList] := by
  have hchars : ("\n".intercalate ["  " ++ expr, underline start stop]).toList
      = ['\n'].intercalate [("  " ++ expr).toList, (underline start stop).toList] := by
    simp [String.intercalate_cons_cons]
  rw [hchars]
  refine List.splitOn_intercalate _ ?_ (by simp)
  simp [underline, h]

end Report

end LambdaCalculus
