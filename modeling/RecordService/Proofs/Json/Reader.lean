import RecordService.Json.Reader
import RecordService.Proofs.Except
import RecordService.Proofs.Value.Inside
/-!
# What the reader makes

In a value that was read, no map repeats a name, at any depth, and none begins with the name that
stands for an embedded value. The machine keeps this of all that it holds: the values that are
complete, and the members and items of the lists and maps that are still open.
-/

namespace RecordService.Json

open Entries

/-- A map as the reader makes it. -/
structure IsReadMap (ms : Entries Value) : Prop where
  nodup : (names ms).Nodup
  head : (names ms).head? ≠ some embeddedName

/-- Each map of the value is as the reader makes it. -/
def IsRead (v : Value) : Prop :=
  v.EachMap IsReadMap

theorem IsRead.distinct {v : Value} (h : IsRead v) : v.Distinct :=
  h.imp fun _ => IsReadMap.nodup

theorem isRead_map_nil : IsRead (.map []) :=
  Value.eachMap_map.2 ⟨⟨List.nodup_nil, by simp [names]⟩, by simp⟩

/-- A member is added to a map. -/
theorem isRead_put {ms : Entries Value} (hms : IsRead (.map ms)) {name : String}
    (hname : ms = [] → name ≠ embeddedName) {v : Value} (hv : IsRead v) :
    IsRead (.map (put name v ms)) := by
  obtain ⟨⟨hn, hhead⟩, hvalues⟩ := Value.eachMap_map.1 hms
  refine Value.eachMap_map.2 ⟨⟨nodup_put hn name v, ?_⟩, fun e he => ?_⟩
  · rw [names_put]
    split
    · exact hhead
    · cases ms with
      | nil => simpa [names] using hname rfl
      | cons e ms => simpa [names] using hhead
  · rcases mem_put he with rfl | he
    · exact hv
    · exact hvalues e he

theorem put_ne_nil (name : String) (v : Value) (ms : Entries Value) : put name v ms ≠ [] := by
  cases ms with
  | nil => simp [put]
  | cons e ms =>
    rw [put]
    split <;> simp

namespace Reader

/-! ## The invariant -/

/-- What was read of an open list or map is as it should be. -/
def Frame.Sound : Frame → Prop
  | .list items => ∀ v ∈ items, IsRead v
  | .map entries name => IsRead (.map entries) ∧ (entries = [] → name ≠ embeddedName)

def Position.Sound : Position → Prop
  | .items xs => ∀ x ∈ xs, IsRead x
  | .colon ms n => IsRead (.map ms) ∧ (ms = [] → n ≠ embeddedName)
  | .name ms => IsRead (.map ms) ∧ ms ≠ []
  | .members ms => IsRead (.map ms) ∧ ms ≠ []
  | .embeddedEnd v => IsRead v
  | _ => True

def Progress.Sound : Progress → Prop
  | .inside frames position => (∀ f ∈ frames, f.Sound) ∧ position.Sound
  | .done v => IsRead v

/-! ## One token -/

/-- A token that is a value is no list and no map. -/
theorem isRead_value? {t : Token Quoted Scalar} {v : Value} (h : t.value? = some v) : IsRead v := by
  unfold Token.value? at h
  split at h
  · cases h; exact Value.eachMap_null
  · cases h; exact Value.eachMap_bool _
  · obtain ⟨n, -, rfl⟩ := Option.map_eq_some_iff.1 h
    exact Value.eachMap_number n
  · cases h; exact Value.eachMap_string _
  · cases h

section Step
variable {frames : List Frame} (hframes : ∀ f ∈ frames, f.Sound)
include hframes

theorem complete_sound {v : Value} (hv : IsRead v) : (complete v frames).Sound := by
  cases frames with
  | nil => exact hv
  | cons f frames =>
    obtain ⟨hf, hrest⟩ := List.forall_mem_cons.1 hframes
    cases f with
    | list items => exact ⟨hrest, List.forall_mem_cons.2 ⟨hv, hf⟩⟩
    | map entries name =>
      exact ⟨hrest, isRead_put hf.1 hf.2 hv, put_ne_nil name v entries⟩

theorem enter_sound {position : Position} (hp : position.Sound) {x : Lexeme} {p : Progress}
    (h : enter frames position x = .ok p) : p.Sound := by
  unfold enter at h
  split at h
  · cases h; exact ⟨hframes, hp⟩
  · cases h

theorem beginValue_sound {x : Lexeme} {p : Progress} (h : beginValue frames x = .ok p) :
    p.Sound := by
  unfold beginValue at h
  split at h
  · exact enter_sound hframes (by trivial) h
  · exact enter_sound hframes (by trivial) h
  · split at h
    · next v hv =>
      cases h
      exact complete_sound hframes (isRead_value? hv)
    · cases h

variable {inner : String → Except Fault Value} (hinner : ∀ s v, inner s = .ok v → IsRead v)
include hinner

omit hframes in
theorem readEmbedded_sound {path : List Place} {x : Lexeme} {v : Value}
    (h : readEmbedded inner path x = .ok v) : IsRead v := by
  unfold readEmbedded at h
  split at h
  · exact hinner _ _ (mapError_eq_ok.1 h)
  · split at h <;> cases h

/-- A token keeps what was read as it should be. -/
theorem advance_sound {position : Position} (hp : position.Sound) {x : Lexeme} {p : Progress}
    (h : advance inner frames position x = .ok p) : p.Sound := by
  unfold advance at h
  dsimp only at h
  -- One case for each row of the machine, in its order.
  split at h
  case h_1 => exact beginValue_sound hframes h
  case h_2 => cases h; exact complete_sound hframes (by simp [IsRead])
  case h_3 => exact beginValue_sound (List.forall_mem_cons.2 ⟨by simp [Frame.Sound], hframes⟩) h
  case h_4 => cases h; exact ⟨List.forall_mem_cons.2 ⟨hp, hframes⟩, trivial⟩
  case h_5 =>
    cases h
    exact complete_sound hframes (Value.eachMap_list.2 fun v hv => hp v (List.mem_reverse.1 hv))
  case h_8 => exact beginValue_sound hframes h
  case h_9 => cases h; exact complete_sound hframes isRead_map_nil
  case h_10 =>
    obtain ⟨name, -, h⟩ := bind_eq_ok.1 h
    cases h
    refine ⟨hframes, ?_⟩
    split
    · trivial
    · next hne => exact ⟨isRead_map_nil, fun _ => hne⟩
  case h_12 =>
    obtain ⟨name, -, h⟩ := bind_eq_ok.1 h
    cases h
    exact ⟨hframes, hp.1, fun hnil => absurd hnil hp.2⟩
  case h_13 => cases h; exact ⟨List.forall_mem_cons.2 ⟨hp, hframes⟩, trivial⟩
  case h_15 => cases h; exact ⟨hframes, hp⟩
  case h_16 => cases h; exact complete_sound hframes hp.1
  case h_18 => cases h; exact ⟨hframes, trivial⟩
  case h_20 =>
    obtain ⟨v, hv, h⟩ := bind_eq_ok.1 h
    cases h
    exact ⟨hframes, readEmbedded_sound hinner hv⟩
  case h_21 => cases h; exact complete_sound hframes hp
  -- The other tokens are refused.
  all_goals cases h

end Step

/-! ## A whole text -/

theorem readFrom_sound {inner : String → Except Fault Value}
    (hinner : ∀ s v, inner s = .ok v → IsRead v) {xs rest : List Lexeme} {v : Value}
    {frames : List Frame} {position : Position} (hframes : ∀ f ∈ frames, f.Sound)
    (hp : position.Sound) (h : readFrom inner frames position xs = .ok (v, rest)) : IsRead v := by
  induction xs generalizing frames position with
  | nil => cases h
  | cons x xs ih =>
    rw [readFrom] at h
    split at h
    · cases h
    · next hadvance =>
      cases h
      exact advance_sound hframes hinner hp hadvance
    · next hadvance =>
      obtain ⟨hframes, hp⟩ := advance_sound hframes hinner hp hadvance
      exact ih hframes hp h

theorem readWithin_sound (levels : Nat) {bs : List UInt8} {v : Value}
    (h : readWithin levels bs = .ok v) : IsRead v := by
  induction levels generalizing bs v with
  | zero => cases h
  | succ levels ih =>
    obtain ⟨⟨w, rest⟩, hread, h⟩ := bind_eq_ok.1 (mapError_eq_ok.1 h)
    have hw : IsRead w := readFrom_sound (fun s v => ih) (by simp) (by trivial) hread
    cases rest with
    | nil => cases h; exact hw
    | cons x rest => cases h

end Reader

theorem readWhole_sound {bs : List UInt8} {v : Value} (h : readWhole bs = .ok v) : IsRead v :=
  Reader.readWithin_sound _ h

theorem readFirst_sound {bs : List UInt8} {v : Value} (h : readFirst bs = .ok v) : IsRead v := by
  obtain ⟨⟨w, rest⟩, hread, rfl⟩ := map_eq_ok.1 (mapError_eq_ok.1 h)
  exact Reader.readFrom_sound (fun s v => readWhole_sound) (by simp) (by trivial) hread

end RecordService.Json
