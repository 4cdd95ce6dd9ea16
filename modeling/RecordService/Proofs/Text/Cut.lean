/-!
# Cutting a text at a separator

The pieces of a text between the places where a separator stands. The places are found from the left
and do not overlap. `cut_intercalate` says that pieces which were joined come back, if none of them
has the separator's first character.
-/

namespace RecordService.Text

/-- The pieces of what follows. `skip` characters still belong to a separator that was found, and
`piece` is what has been read of the current piece, last character first. -/
def cutFrom (sep : List Char) : Nat → List Char → List Char → List (List Char)
  | _, piece, [] => [piece.reverse]
  | skip + 1, piece, _ :: cs => cutFrom sep skip piece cs
  | 0, piece, c :: cs =>
    if sep.isPrefixOf (c :: cs) then piece.reverse :: cutFrom sep (sep.length - 1) [] cs
    else cutFrom sep 0 (c :: piece) cs

/-- The pieces of a text between the places where `sep` stands. -/
def cut (sep text : String) : List String :=
  (cutFrom sep.toList 0 [] text.toList).map String.ofList

theorem cutFrom_skip (sep piece passed cs : List Char) :
    cutFrom sep passed.length piece (passed ++ cs) = cutFrom sep 0 piece cs := by
  induction passed with
  | nil => rfl
  | cons c passed ih => simpa [cutFrom] using ih

/-- No separator begins in characters that its first one is not among. -/
theorem cutFrom_append {s : Char} {p : List Char} (h : s ∉ p) (ss piece cs : List Char) :
    cutFrom (s :: ss) 0 piece (p ++ cs) = cutFrom (s :: ss) 0 (p.reverse ++ piece) cs := by
  induction p generalizing piece with
  | nil => rfl
  | cons c p ih =>
    obtain ⟨hc, hp⟩ : s ≠ c ∧ s ∉ p := by simpa using h
    have hno : (s :: ss).isPrefixOf (c :: (p ++ cs)) = false := by simp [List.isPrefixOf, hc]
    rw [List.cons_append, cutFrom, hno, if_neg Bool.false_ne_true, ih hp, List.reverse_cons,
      List.append_assoc]
    rfl

theorem cutFrom_separator (s : Char) (ss piece cs : List Char) :
    cutFrom (s :: ss) 0 piece ((s :: ss) ++ cs) = piece.reverse :: cutFrom (s :: ss) 0 [] cs := by
  have hyes : (s :: ss).isPrefixOf (s :: (ss ++ cs)) = true := by
    rw [List.isPrefixOf_iff_prefix]
    exact List.prefix_append (s :: ss) cs
  rw [List.cons_append, cutFrom, if_pos hyes, List.length_cons, Nat.add_sub_cancel, cutFrom_skip]

theorem cutFrom_intercalate {s : Char} (ss : List Char) {ps : List (List Char)} (hne : ps ≠ [])
    (h : ∀ p ∈ ps, s ∉ p) : cutFrom (s :: ss) 0 [] ((s :: ss).intercalate ps) = ps := by
  induction ps with
  | nil => exact absurd rfl hne
  | cons p ps ih =>
    have hp : s ∉ p := h p List.mem_cons_self
    -- The first piece ends with the text, or where the separator stands.
    cases ps with
    | nil =>
      rw [List.intercalate_singleton, ← List.append_nil p, cutFrom_append hp]
      simp [cutFrom]
    | cons q qs =>
      have hqs : ∀ r ∈ q :: qs, s ∉ r := fun r hr => h r (List.mem_cons_of_mem _ hr)
      rw [List.intercalate_cons_cons, List.append_assoc, cutFrom_append hp, cutFrom_separator,
        ih (List.cons_ne_nil q qs) hqs]
      simp

/-- Pieces that were joined come back, if the separator's first character is in none of them. -/
theorem cut_intercalate {sep : String} {s : Char} {ss : List Char} (hsep : sep.toList = s :: ss)
    {ps : List String} (hne : ps ≠ []) (h : ∀ p ∈ ps, s ∉ p.toList) :
    cut sep (sep.intercalate ps) = ps := by
  have hmap : ps.map String.toList ≠ [] := by simpa using hne
  rw [cut, String.toList_intercalate, hsep, cutFrom_intercalate ss hmap (by simpa using h),
    List.map_map]
  simp [Function.comp_def]

end RecordService.Text
