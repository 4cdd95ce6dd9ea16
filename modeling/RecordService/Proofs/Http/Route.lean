import Mathlib.Data.List.TakeWhile
import RecordService.Http.Plan
import RecordService.Proofs.Text.Percent
import RecordService.Proofs.Text.Utf8
/-!
# Targets that address records

The paths of the service as octets. Every key that is not empty has a path: what the key is made of
does not matter once each of its octets is written as an escape.
-/

namespace RecordService.Http

open Text

/-! ## Paths -/

namespace Target

theorem pieces_slashes (ps : List (List UInt8)) (h : ∀ p ∈ ps, 0x2F ∉ p) :
    pieces ([0x2F].intercalate ([] :: ps)) = some ps := by
  have hall : ∀ p ∈ [] :: ps, (0x2F : UInt8) ∉ p := List.forall_mem_cons.2 ⟨by simp, h⟩
  rw [pieces, List.splitOn_intercalate _ hall (List.cons_ne_nil _ _)]

theorem differs {mark : UInt8} {bs : List UInt8} (h : mark ∉ bs) :
    ∀ b ∈ bs, (b != mark) = true := by
  intro b hb
  exact bne_iff_ne.2 fun heq => h (heq ▸ hb)

/-- Octets without the marks of a query and of a fragment are all path. -/
theorem ofPath_self {bs : List UInt8} (hquery : 0x3F ∉ bs) (hfragment : 0x23 ∉ bs) :
    ofPath bs = ⟨bs, []⟩ := by
  have hwhole := differs hfragment
  have hpath := differs hquery
  simp only [ofPath, List.takeWhile_eq_self_iff.2 hwhole, List.takeWhile_eq_self_iff.2 hpath,
    List.dropWhile_eq_nil_iff.2 hpath, List.drop_nil]

/-- The first mark of a query ends the path. -/
theorem ofPath_query {path query : List UInt8} (hpath : 0x3F ∉ path)
    (hfragment : 0x23 ∉ path ++ 0x3F :: query) :
    ofPath (path ++ 0x3F :: query) = ⟨path, query⟩ := by
  have hwhole := differs hfragment
  have hbefore := differs hpath
  simp only [ofPath, List.takeWhile_eq_self_iff.2 hwhole]
  rw [List.takeWhile_append_of_pos hbefore, List.dropWhile_append_of_pos hbefore]
  simp

/-- A text that begins with a slash begins with the path. -/
theorem ofText_slash {s : String} {bs : List UInt8} (h : Utf8.encode s.toList = 0x2F :: bs) :
    ofText s = ofPath (0x2F :: bs) := by
  simp only [ofText, h]

end Target

theorem Route.ofPath?_records : ofPath? (Target.ascii "/records") = some .records := by
  decide

theorem Route.ofPath?_record {key : List UInt8} (hne : key ≠ []) (hslash : 0x2F ∉ key) :
    ofPath? (Target.ascii "/records/" ++ key) = some (.record key) := by
  have hname : (0x2F : UInt8) ∉ Target.ascii "records" := by decide
  have hpieces := Target.pieces_slashes [Target.ascii "records", key]
    (by simp [hname, hslash])
  have hpath : Target.ascii "/records/" ++ key
      = [0x2F].intercalate [[], Target.ascii "records", key] := by
    simp only [List.intercalate_cons_cons, List.intercalate_singleton]
    rfl
  rw [ofPath?, hpath, hpieces]
  simp [hne]

/-! ## The target of a record -/

/-- The target is `/records/`, and after it every octet of the key as an escape. -/
def Target.Addresses (k target : String) : Prop :=
  ∃ escapes, Percent.Escapes (Utf8.encode k.toList) escapes ∧
    Utf8.encode target.toList = ascii "/records/" ++ escapes

theorem Target.Addresses.route {k target : String} (h : Addresses k target) (hk : k ≠ "") :
    ∃ octets, Route.ofPath? (ofText target).path = some (.record octets) ∧
      Plan.keyText? octets = some k := by
  obtain ⟨escapes, hescapes, htarget⟩ := h
  have hmarks : ∀ mark ∈ [0x2F, 0x3F, 0x23], mark ∉ escapes := by
    intro mark hmark
    simp only [List.mem_cons, List.not_mem_nil, or_false] at hmark
    rcases hmark with rfl | rfl | rfl <;> exact hescapes.not_mem (by decide) (by decide)
  have hpath : (ofText target).path = ascii "/records/" ++ escapes := by
    have hslash : ascii "/records/" ++ escapes = 0x2F :: (ascii "records/" ++ escapes) := rfl
    have hquery : 0x3F ∉ ascii "/records/" ++ escapes :=
      List.not_mem_append (by decide) (hmarks _ (by simp))
    have hfragment : 0x23 ∉ ascii "/records/" ++ escapes :=
      List.not_mem_append (by decide) (hmarks _ (by simp))
    rw [ofText_slash (htarget.trans hslash), ← hslash, ofPath_self hquery hfragment]
  refine ⟨escapes, ?_, ?_⟩
  · rw [hpath]
    refine Route.ofPath?_record (hescapes.ne_nil ?_) (hmarks _ (by simp))
    exact Utf8.encode_ne_nil (by simpa using hk)
  · simp [Plan.keyText?, hescapes.decode, Utf8.decode?_encode]

/-- Every key has such a target. -/
theorem Target.exists_addresses (k : String) : ∃ target, Addresses k target := by
  have hescapes := Percent.escapes_encode (Utf8.encode k.toList)
  have hascii : ∀ b ∈ ascii "/records/" ++ Percent.encode (Utf8.encode k.toList), b < 0x80 := by
    have hpath : (ascii "/records/").all (· < 0x80) = true := by decide
    exact List.forall_mem_append.2 ⟨by simpa using hpath, hescapes.ascii⟩
  obtain ⟨target, htarget⟩ := Utf8.exists_encode hascii
  exact ⟨target, _, hescapes, htarget⟩

/-! ## The target of a filter -/

/-- The target is `/records` with one pair as its query, every octet of which is an escape. -/
def Target.Filters (name value target : String) : Prop :=
  ∃ es vs, Percent.Escapes (Utf8.encode name.toList) es ∧
    Percent.Escapes (Utf8.encode value.toList) vs ∧
    Utf8.encode target.toList = ascii "/records" ++ 0x3F :: (es ++ 0x3D :: vs)

theorem Target.Filters.ofText {name value target : String} (h : Filters name value target) :
    (ofText target).path = ascii "/records" ∧ (ofText target).parameters = [(name, value)] := by
  obtain ⟨es, vs, hes, hvs, htarget⟩ := h
  have hfragment : 0x23 ∉ ascii "/records" ++ 0x3F :: (es ++ 0x3D :: vs) := by
    have hname : 0x23 ∉ es := hes.not_mem (by decide) (by decide)
    have hvalue : 0x23 ∉ vs := hvs.not_mem (by decide) (by decide)
    have hpath : 0x23 ∉ ascii "/records" := by decide
    simp [hname, hvalue, hpath]
  have hslash : ascii "/records" ++ 0x3F :: (es ++ 0x3D :: vs)
      = 0x2F :: (ascii "records" ++ 0x3F :: (es ++ 0x3D :: vs)) := rfl
  rw [ofText_slash (htarget.trans hslash), ← hslash, ofPath_query (by decide) hfragment]
  exact ⟨rfl, Percent.formPairs_escapes hes hvs⟩

/-- Every pair has such a target. -/
theorem Target.exists_filters (name value : String) : ∃ target, Filters name value target := by
  have hes := Percent.escapes_encode (Utf8.encode name.toList)
  have hvs := Percent.escapes_encode (Utf8.encode value.toList)
  have hascii : ∀ b ∈ ascii "/records" ++ 0x3F :: (Percent.encode (Utf8.encode name.toList)
      ++ 0x3D :: Percent.encode (Utf8.encode value.toList)), b < 0x80 := by
    have hpath : (ascii "/records").all (· < 0x80) = true := by decide
    have hpair : ∀ b ∈ Percent.encode (Utf8.encode name.toList)
        ++ 0x3D :: Percent.encode (Utf8.encode value.toList), b < 0x80 :=
      List.forall_mem_append.2 ⟨hes.ascii, List.forall_mem_cons.2 ⟨by decide, hvs.ascii⟩⟩
    exact List.forall_mem_append.2 ⟨by simpa using hpath, List.forall_mem_cons.2 ⟨by decide, hpair⟩⟩
  obtain ⟨target, htarget⟩ := Utf8.exists_encode hascii
  exact ⟨target, _, _, hes, hvs, htarget⟩

end RecordService.Http
