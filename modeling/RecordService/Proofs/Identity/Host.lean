import Mathlib.Data.List.TakeWhile
import RecordService.Identity.UserPool
/-!
# Where credentials go

The endpoint of a user pool is a URL, and its host is that of the provider in the pool's region
exactly if no character of the region has a meaning of its own in a URL. `endpoint_host` says so of
every pool identifier that is accepted.
-/

namespace RecordService.Identity

/-! ## Hosts -/

/-- What follows `https://` in a URL, up to its path, its query or its fragment. -/
def authority? (url : String) : Option (List Char) :=
  if "https://".toList.isPrefixOf url.toList then
    some ((url.toList.drop 8).takeWhile fun c => c ∉ ['/', '?', '#'])
  else none

/-- The host of a URL: its authority without the user information, which ends at the last `@`, and
without the port. -/
def host? (url : String) : Option String :=
  (authority? url).map fun authority =>
    String.ofList ((authority.reverse.takeWhile (· ≠ '@')).reverse.takeWhile (· ≠ ':'))

/-- The characters that a host cannot hold, as they end it or what stands before it. -/
def hostMarks : List Char := ['/', '?', '#', '@', ':']

theorem not_mem_hostMarks {url host : String} (h : host? url = some host) :
    ∀ c ∈ host.toList, c ∉ hostMarks := by
  obtain ⟨authority, hauthority, rfl⟩ := Option.map_eq_some_iff.1 h
  intro c hc
  rw [String.toList_ofList] at hc
  have hport : c ≠ ':' := by simpa using List.mem_takeWhile_imp hc
  have hafter := List.mem_reverse.1 ((List.takeWhile_sublist _).subset hc)
  have huser : c ≠ '@' := by simpa using List.mem_takeWhile_imp hafter
  have hinside : c ∈ authority := List.mem_reverse.1 ((List.takeWhile_sublist _).subset hafter)
  unfold authority? at hauthority
  split at hauthority
  · cases hauthority
    have hend : c ∉ ['/', '?', '#'] := by simpa using List.mem_takeWhile_imp hinside
    simp_all [hostMarks]
  · cases hauthority

/-- What has no marks is the host, up to the slash after it. -/
theorem host?_of_plain {name : String} (h : ∀ c ∈ name.toList, c ∉ hostMarks) (path : String) :
    host? ("https://" ++ name ++ "/" ++ path) = some name := by
  have hurl : ("https://" ++ name ++ "/" ++ path).toList
      = "https://".toList ++ (name.toList ++ '/' :: path.toList) := by
    simp
  have hauthority : authority? ("https://" ++ name ++ "/" ++ path) = some name.toList := by
    have hplain : ∀ c ∈ name.toList, decide (c ∉ ['/', '?', '#']) = true := by
      intro c hc
      have hmarks := h c hc
      simp_all [hostMarks]
    rw [authority?, hurl, if_pos (List.isPrefixOf_iff_prefix.2 (List.prefix_append _ _)),
      List.drop_left' (by decide), List.takeWhile_append_of_pos hplain,
      List.takeWhile_cons_of_neg (by decide), List.append_nil]
  have huser : ∀ c ∈ name.toList.reverse, decide (c ≠ '@') = true := by
    intro c hc
    have hmarks := h c (List.mem_reverse.1 hc)
    simp_all [hostMarks]
  have hport : ∀ c ∈ name.toList, decide (c ≠ ':') = true := by
    intro c hc
    have hmarks := h c hc
    simp_all [hostMarks]
  rw [host?, hauthority, Option.map_some, List.takeWhile_eq_self_iff.2 huser, List.reverse_reverse,
    List.takeWhile_eq_self_iff.2 hport, String.ofList_toList]

/-! ## Pool identifiers -/

/-- The identifier is that of a pool in the region: the region is what stands before its first `_`,
and neither that nor the rest is empty. -/
def IsPoolIn (region poolId : String) : Prop :=
  region ≠ "" ∧ '_' ∉ region.toList ∧ ∃ id, id ≠ "" ∧ poolId = region ++ "_" ++ id

namespace UserPool

theorem region?_eq_some {poolId region : String} :
    region? poolId = some region ↔ IsPoolIn region poolId := by
  unfold region?
  constructor
  · intro h
    dsimp only at h
    split at h
    · cases h
    · next hparts =>
      obtain rfl := Option.some.inj h
      obtain ⟨hregion, hid⟩ := not_or.1 hparts
      rw [List.isEmpty_iff] at hregion hid
      have hsplit := List.takeWhile_append_dropWhile (p := (· ≠ '_')) (l := poolId.toList)
      have hhead := List.head?_dropWhile_not (· ≠ '_') poolId.toList
      -- What is left begins with the `_` that ends the region.
      obtain ⟨mark, id, hrest⟩ : ∃ mark id, poolId.toList.dropWhile (· ≠ '_') = mark :: id :=
        List.exists_cons_of_ne_nil fun hnil => hid (by rw [hnil]; rfl)
      rw [hrest] at hsplit hhead hid
      obtain rfl : mark = '_' := by simpa using hhead
      refine ⟨?_, ?_, String.ofList id, ?_, ?_⟩
      · simpa using hregion
      · rw [String.toList_ofList]
        exact fun hmem => absurd (List.mem_takeWhile_imp hmem) (by simp)
      · simpa using hid
      · rw [← String.toList_inj]
        simpa using hsplit.symm
  · rintro ⟨hregion, hmark, id, hid, rfl⟩
    have hplain : ∀ c ∈ region.toList, decide (c ≠ '_') = true := by
      rintro c hc
      exact decide_eq_true fun heq => hmark (heq ▸ hc)
    have hlist : (region ++ "_" ++ id).toList = region.toList ++ '_' :: id.toList := by simp
    dsimp only
    rw [hlist, List.takeWhile_append_of_pos hplain, List.dropWhile_append_of_pos hplain,
      List.takeWhile_cons_of_neg (by simp), List.dropWhile_cons_of_neg (by simp)]
    simp [hregion, hid]

/-- What the provider's host is called in a region. -/
def hostIn (region : String) : String := "cognito-idp." ++ region ++ ".amazonaws.com"

theorem hostIn_plain_iff {region : String} : (∀ c ∈ (hostIn region).toList, c ∉ hostMarks) ↔
    ∀ c ∈ region.toList, c ∉ hostMarks := by
  have hname : ∀ c ∈ "cognito-idp.".toList, c ∉ hostMarks := by simp [hostMarks]
  have hdomain : ∀ c ∈ ".amazonaws.com".toList, c ∉ hostMarks := by simp [hostMarks]
  rw [hostIn, String.toList_append, String.toList_append, List.forall_mem_append,
    List.forall_mem_append]
  exact ⟨fun h => h.1.2, fun h => ⟨⟨hname, h⟩, hdomain⟩⟩

/-- An identifier is accepted exactly if it is that of a pool in some region, and any other one is
refused as being none. The endpoint of a pool is then a URL whose host is the provider's in that
region, unless the region holds a character that ends a host or the user information, or begins a
port or a path; then the host is another one. -/
theorem endpoint_host (clientId poolId : String) :
    (∀ region, IsPoolIn region poolId → ∃ pool, ofId clientId poolId = .ok pool ∧
      pool.endpoint = "https://" ++ hostIn region ++ "/" ∧
      (host? pool.endpoint = some (hostIn region) ↔ ∀ c ∈ region.toList, c ∉ hostMarks)) ∧
    ((∀ region, ¬IsPoolIn region poolId) →
      ofId clientId poolId = .error (.notUserPool poolId)) := by
  constructor
  · intro region h
    have hendpoint : "https://cognito-idp." ++ region ++ ".amazonaws.com/"
        = "https://" ++ hostIn region ++ "/" := by
      rw [hostIn, ← String.toList_inj]
      simp
    refine ⟨⟨clientId, _⟩, ?_, hendpoint, ?_⟩
    · rw [ofId, region?_eq_some.2 h]
    · rw [hendpoint]
      constructor
      · exact fun hhost => hostIn_plain_iff.1 (not_mem_hostMarks hhost)
      · intro hplain
        have hhost := host?_of_plain (hostIn_plain_iff.2 hplain) ""
        rwa [String.append_empty] at hhost
  · intro h
    have hnone : region? poolId = none := by
      rw [Option.eq_none_iff_forall_ne_some]
      exact fun region hregion => h region (region?_eq_some.1 hregion)
    rw [ofId, hnone]

/-- A pool in an ordinary region, and an identifier without one. -/
theorem endpoint_host_ordinary :
    (∃ pool, ofId "client" "ap-south-1_Q" = .ok pool ∧
      host? pool.endpoint = some "cognito-idp.ap-south-1.amazonaws.com") ∧
    ofId "client" "useast1" = .error (.notUserPool "useast1") := by
  obtain ⟨haccepted, -⟩ := endpoint_host "client" "ap-south-1_Q"
  obtain ⟨-, hrefused⟩ := endpoint_host "client" "useast1"
  obtain ⟨pool, hpool, -, hhost⟩ :=
    haccepted "ap-south-1" ⟨by decide, by decide, "Q", by decide, by decide⟩
  refine ⟨⟨pool, hpool, hhost.2 (by simp [hostMarks])⟩, hrefused fun region hregion => ?_⟩
  have hnone : region? "useast1" = none := by decide
  rw [region?_eq_some.2 hregion] at hnone
  cases hnone

/-- An identifier that is accepted, although its endpoint is not at the provider's. -/
theorem endpoint_elsewhere : ∃ pool, ofId "client" "x@example.com/_y" = .ok pool ∧
    IsPoolIn "x@example.com/" "x@example.com/_y" ∧ host? pool.endpoint = some "example.com" :=
  ⟨⟨"client", "https://cognito-idp.x@example.com/.amazonaws.com/"⟩, by decide,
    ⟨by decide, by decide, "y", by decide, by decide⟩, by decide⟩

end UserPool

end RecordService.Identity
