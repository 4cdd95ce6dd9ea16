import RecordService.Text.Utf8
/-!
# Encoded text

Text that is not empty has octets, and octets of ASCII are their own text. The octets of any other
character are all above ASCII. A first character that is decoded is the one that was encoded.
-/

namespace RecordService.Text.Utf8

theorem forall_octet {p : UInt8 → Prop} (h : ∀ n < 0x100, p (UInt8.ofNat n)) (b : UInt8) : p b := by
  have hb := h b.toNat b.toNat_lt
  rwa [UInt8.ofNat_toNat] at hb

/-- What is seen of each character below 0x80 by looking. -/
@[elab_as_elim]
theorem forall_ascii {p : Char → Prop} {c : Char} (hc : c.toNat < 0x80)
    (h : ∀ n < 0x80, p (Char.ofNat n)) : p c := by
  have hchar := h c.toNat hc
  rwa [Char.ofNat_toNat] at hchar

theorem encode_ne_nil {cs : List Char} (h : cs ≠ []) : encode cs ≠ [] := by
  intro hnil
  have hdecode := decode?_encode cs
  rw [hnil] at hdecode
  exact h (Option.some.inj hdecode).symm

/-- What is encoded is decoded, also where malformed pieces are allowed. -/
theorem decodeLossy_encode (cs : List Char) : decodeLossy (encode cs) = cs := by
  rw [decodeLossy, entries, entriesFrom_encode]
  simp [Function.comp_def]

theorem encode_append (cs ds : List Char) : encode (cs ++ ds) = encode cs ++ encode ds :=
  List.flatMap_append

/-- No character goes without an octet. -/
theorem length_le_encode (cs : List Char) : cs.length ≤ (encode cs).length := by
  induction cs with
  | nil => exact Nat.le.refl
  | cons c cs ih =>
    have hchar := c.utf8Size_pos
    rw [encode, List.flatMap_cons, List.length_append, String.length_utf8EncodeChar,
      List.length_cons]
    rw [encode] at ih
    omega

theorem utf8EncodeChar_ofNat : ∀ n < 0x80,
    String.utf8EncodeChar (Char.ofNat n) = [UInt8.ofNat n] := by
  decide

theorem utf8EncodeChar_ascii {c : Char} (h : c.toNat < 0x80) :
    String.utf8EncodeChar c = [UInt8.ofNat c.toNat] := by
  rw [← utf8EncodeChar_ofNat c.toNat h, Char.ofNat_toNat]

theorem encode_ascii {bs : List UInt8} (h : ∀ b ∈ bs, b < 0x80) :
    encode (bs.map fun b => Char.ofNat b.toNat) = bs := by
  induction bs with
  | nil => rfl
  | cons b bs ih =>
    obtain ⟨hb, hbs⟩ := List.forall_mem_cons.1 h
    have hchar := utf8EncodeChar_ofNat b.toNat (UInt8.lt_iff_toNat_lt.1 hb)
    rw [UInt8.ofNat_toNat] at hchar
    have ih := ih hbs
    simp only [encode, List.map_cons, List.flatMap_cons] at ih ⊢
    rw [hchar, ih, List.singleton_append]

/-- The octets of an array from `i` on, after those already there, last first. -/
theorem toList_loop (bs : ByteArray) (i : Nat) (seen : List UInt8) :
    ByteArray.toList.loop bs i seen = seen.reverse ++ bs.data.toList.drop i := by
  induction i, seen using ByteArray.toList.loop.induct bs with
  | case1 i seen hlt ih =>
    have hi : i < bs.data.toList.length := by simpa using hlt
    have hnext : bs.data.toList.drop i = bs.get! i :: bs.data.toList.drop (i + 1) := by
      rw [List.drop_eq_getElem_cons hi, ByteArray.get!, getElem!_pos bs.data i hlt,
        Array.getElem_toList]
    rw [ByteArray.toList.loop, if_pos hlt, ih, hnext]
    simp
  | case2 i seen hend =>
    have hi : bs.data.toList.length ≤ i := by simpa using Nat.le_of_not_lt hend
    rw [ByteArray.toList.loop, if_neg hend, List.drop_eq_nil_of_le hi, List.append_nil]

/-- The octets of a text are those of its characters. -/
theorem toList_toUTF8 (s : String) : s.toUTF8.toList = encode s.toList := by
  have hcode : (String.ofList s.toList).toUTF8 = (encode s.toList).toByteArray :=
    String.toByteArray_ofList
  rw [String.ofList_toList] at hcode
  rw [hcode, ByteArray.toList, toList_loop]
  simp

theorem exists_encode {bs : List UInt8} (h : ∀ b ∈ bs, b < 0x80) :
    ∃ s : String, encode s.toList = bs :=
  ⟨String.ofList (bs.map fun b => Char.ofNat b.toNat), by
    rw [String.toList_ofList, encode_ascii h]⟩

theorem utf8EncodeChar_high {c : Char} (h : 0x80 ≤ c.toNat) :
    ∀ b ∈ String.utf8EncodeChar c, 0x80 ≤ b := by
  have hvalid : c.toNat < 0x110000 := by
    have hv : c.toNat < 0xD800 ∨ (0xDFFF < c.toNat ∧ c.toNat < 0x110000) := c.valid
    omega
  have hhigh : ∀ n, 0x80 ≤ n → n < 0x100 → (0x80 : UInt8) ≤ UInt8.ofNat n := by
    intro n hn hlt
    rw [UInt8.le_iff_toNat_le, toNat_ofNat hlt]
    exact hn
  change 0x80 ≤ c.val.toNat at h
  change c.val.toNat < 0x110000 at hvalid
  simp only [String.utf8EncodeChar]
  generalize c.val.toNat = n at h hvalid
  rw [if_neg (by omega)]
  intro b hb
  split at hb
  · simp only [List.mem_cons, List.not_mem_nil, or_false] at hb
    rcases hb with rfl | rfl <;> exact hhigh _ (by omega) (by omega)
  · split at hb
    · simp only [List.mem_cons, List.not_mem_nil, or_false] at hb
      rcases hb with rfl | rfl | rfl <;> exact hhigh _ (by omega) (by omega)
    · simp only [List.mem_cons, List.not_mem_nil, or_false] at hb
      rcases hb with rfl | rfl | rfl | rfl <;> exact hhigh _ (by omega) (by omega)

/-! ## What is decoded was encoded -/

theorem decode?_eq_some {bs : List UInt8} {cs : List Char} :
    decode? bs = some cs ↔ entriesFrom none [] bs = cs.map some := by
  rw [decode?, entries]
  generalize entriesFrom none [] bs = es
  induction es generalizing cs with
  | nil => cases cs <;> simp
  | cons e es ih =>
    simp only [List.mapM_cons, id_eq, Option.bind_eq_bind, Option.bind_eq_some_iff, Option.pure_def,
      Option.some.injEq]
    constructor
    · rintro ⟨c, rfl, ds, hds, rfl⟩
      rw [List.map_cons, ih.1 hds]
    · intro h
      cases cs with
      | nil => cases h
      | cons c ds =>
        obtain ⟨rfl, hds⟩ := List.cons.inj h
        exact ⟨c, rfl, ds, ih.2 hds, rfl⟩

theorem entriesFrom_cons (p : Option Pending) (b : UInt8) (bs : List UInt8) :
    entriesFrom p [] (b :: bs) = (step p b).1 ++ entriesFrom (step p b).2 [] bs := by
  simp only [entriesFrom]
  rw [entriesFrom_seen]
  simp

/-- An open sequence goes on, or is malformed. -/
theorem within_of_pending {p : Pending} {bs : List UInt8} {cs : List Char}
    (h : entriesFrom (some p) [] bs = cs.map some) :
    ∃ k rest, bs = k :: rest ∧ p.low ≤ k ∧ k ≤ p.high := by
  cases bs with
  | nil => cases cs <;> simp [entriesFrom] at h
  | cons k rest =>
    refine ⟨k, rest, rfl, ?_⟩
    rw [entriesFrom_cons, step] at h
    split at h
    · assumption
    · cases cs <;> simp at h

/-- The last octet of a sequence. -/
theorem of_pending_last {low high : UInt8} {bits : Nat} {bs : List UInt8} {cs : List Char}
    (h : entriesFrom (some ⟨1, low, high, bits⟩) [] bs = cs.map some) :
    ∃ k rest ds, bs = k :: rest ∧ low.toNat ≤ k.toNat ∧ k.toNat ≤ high.toNat ∧
      cs = Char.ofNat (bits * 64 + k.toNat % 64) :: ds ∧ decode? rest = some ds := by
  obtain ⟨k, rest, rfl, hlow, hhigh⟩ := within_of_pending h
  rw [entriesFrom_cons, step, if_pos ⟨hlow, hhigh⟩] at h
  cases cs with
  | nil => simp at h
  | cons c ds =>
    obtain ⟨hc, hrest⟩ : _ = c ∧ _ := by simpa using h
    exact ⟨k, rest, ds, rfl, hlow, hhigh, by rw [hc], decode?_eq_some.2 hrest⟩

/-- An octet of a sequence before the last. -/
theorem of_pending_more {missing : Nat} {low high : UInt8} {bits : Nat} {bs : List UInt8}
    {cs : List Char} (h : entriesFrom (some ⟨missing + 2, low, high, bits⟩) [] bs = cs.map some) :
    ∃ k rest, bs = k :: rest ∧ low.toNat ≤ k.toNat ∧ k.toNat ≤ high.toNat ∧
      entriesFrom (some ⟨missing + 1, 0x80, 0xBF, bits * 64 + k.toNat % 64⟩) [] rest
        = cs.map some := by
  obtain ⟨k, rest, rfl, hlow, hhigh⟩ := within_of_pending h
  rw [entriesFrom_cons, step, if_pos ⟨hlow, hhigh⟩] at h
  exact ⟨k, rest, rfl, hlow, hhigh, h⟩

/-- What an octet that begins a sequence says of it. -/
theorem of_lead? {b : UInt8} {p : Pending} (h : lead? b = some p) :
    (b.toNat = p.bits + 192 ∧ 2 ≤ p.bits ∧ p = ⟨1, 0x80, 0xBF, p.bits⟩ ∧ p.bits < 32) ∨
    (b.toNat = p.bits + 224 ∧ p.bits < 16 ∧
      p = ⟨2, if p.bits = 0 then 0xA0 else 0x80, if p.bits = 13 then 0x9F else 0xBF, p.bits⟩) ∨
    (b.toNat = p.bits + 240 ∧ p.bits < 5 ∧
      p = ⟨3, if p.bits = 0 then 0x90 else 0x80, if p.bits = 4 then 0x8F else 0xBF, p.bits⟩) := by
  have hall : ∀ n < 256, ∀ p ∈ lead? (UInt8.ofNat n),
    (n = p.bits + 192 ∧ 2 ≤ p.bits ∧ p = ⟨1, 0x80, 0xBF, p.bits⟩ ∧ p.bits < 32) ∨
    (n = p.bits + 224 ∧ p.bits < 16 ∧
      p = ⟨2, if p.bits = 0 then 0xA0 else 0x80, if p.bits = 13 then 0x9F else 0xBF, p.bits⟩) ∨
    (n = p.bits + 240 ∧ p.bits < 5 ∧
      p = ⟨3, if p.bits = 0 then 0x90 else 0x80, if p.bits = 4 then 0x8F else 0xBF, p.bits⟩) := by
    decide +kernel
  exact hall b.toNat b.toNat_lt p (by rwa [UInt8.ofNat_toNat])


/-- The octet of the number. -/
theorem ofNat_eq {b : UInt8} {n : Nat} (h : b.toNat = n) : UInt8.ofNat n = b := by
  rw [← h, UInt8.ofNat_toNat]

theorem val_ofNat {n : Nat} (h : n < 0xD800 ∨ 0xDFFF < n ∧ n < 0x110000) :
    (Char.ofNat n).val.toNat = n := by
  have hvalid : n.isValidChar := h
  rw [Char.ofNat, dif_pos hvalid]
  rfl

/-- The octets that are decoded to the first character are those of the character. -/
theorem decode?_cons {b : UInt8} {bs : List UInt8} {cs : List Char}
    (h : decode? (b :: bs) = some cs) :
    ∃ c ds more, cs = c :: ds ∧ b :: bs = String.utf8EncodeChar c ++ more ∧
      decode? more = some ds := by
  rw [decode?_eq_some, entriesFrom_cons, step, start] at h
  by_cases hb : b < 0x80
  · rw [if_pos hb] at h
    cases cs with
    | nil => cases h
    | cons c ds =>
      obtain ⟨hc, hds⟩ := List.cons.inj h
      rw [← Option.some.inj hc]
      refine ⟨_, ds, bs, rfl, ?_, decode?_eq_some.2 hds⟩
      rw [utf8EncodeChar_ofNat _ (UInt8.lt_iff_toNat_lt.1 hb), UInt8.ofNat_toNat]
      rfl
  · rw [if_neg hb] at h
    cases hlead : lead? b with
    | none =>
      rw [hlead] at h
      cases cs <;> cases h
    | some p =>
      simp only [hlead, List.nil_append] at h
      have h80 : (0x80 : UInt8).toNat = 0x80 := rfl
      have hBF : (0xBF : UInt8).toNat = 0xBF := rfl
      obtain ⟨hbits, h2, hp, h32⟩ | ⟨hbits, h16, hp⟩ | ⟨hbits, h5, hp⟩ := of_lead? hlead
      · rw [hp] at h
        obtain ⟨k, more, ds, rfl, hlow, hhigh, rfl, hmore⟩ := of_pending_last h
        rw [h80] at hlow
        rw [hBF] at hhigh
        refine ⟨_, ds, more, rfl, ?_, hmore⟩
        rw [String.utf8EncodeChar, val_ofNat (by omega), if_neg (by omega), if_pos (by omega),
          ofNat_eq (b := b) (by omega), ofNat_eq (b := k) (by omega)]
        rfl
      · rw [hp] at h
        obtain ⟨k, rest, rfl, hlow, hhigh, h⟩ := of_pending_more h
        obtain ⟨l, more, ds, rfl, hlow', hhigh', rfl, hmore⟩ := of_pending_last h
        rw [h80] at hlow'
        rw [hBF] at hhigh'
        refine ⟨_, ds, more, rfl, ?_, hmore⟩
        have hk : 0x80 ≤ k.toNat ∧ k.toNat ≤ 0xBF ∧ (p.bits = 0 → 0xA0 ≤ k.toNat) ∧
            (p.bits = 13 → k.toNat ≤ 0x9F) := by
          split at hlow <;> split at hhigh <;> simp at hlow hhigh <;> omega
        rw [String.utf8EncodeChar, val_ofNat (by omega), if_neg (by omega), if_neg (by omega),
          if_pos (by omega), ofNat_eq (b := b) (by omega), ofNat_eq (b := k) (by omega),
          ofNat_eq (b := l) (by omega)]
        rfl
      · rw [hp] at h
        obtain ⟨k, rest, rfl, hlow, hhigh, h⟩ := of_pending_more h
        obtain ⟨l, rest, rfl, hlow', hhigh', h⟩ := of_pending_more h
        obtain ⟨m, more, ds, rfl, hlow'', hhigh'', rfl, hmore⟩ := of_pending_last h
        rw [h80] at hlow' hlow''
        rw [hBF] at hhigh' hhigh''
        refine ⟨_, ds, more, rfl, ?_, hmore⟩
        have hk : 0x80 ≤ k.toNat ∧ k.toNat ≤ 0xBF ∧ (p.bits = 0 → 0x90 ≤ k.toNat) ∧
            (p.bits = 4 → k.toNat ≤ 0x8F) := by
          split at hlow <;> split at hhigh <;> simp at hlow hhigh <;> omega
        rw [String.utf8EncodeChar, val_ofNat (by omega), if_neg (by omega), if_neg (by omega),
          if_neg (by omega), ofNat_eq (b := b) (by omega), ofNat_eq (b := k) (by omega),
          ofNat_eq (b := l) (by omega), ofNat_eq (b := m) (by omega)]
        rfl

/-- A character is decoded first, and what follows it after it. -/
theorem decode?_of_char {c : Char} {bs : List UInt8} {cs : List Char}
    (h : decode? (String.utf8EncodeChar c ++ bs) = some cs) :
    ∃ ds, cs = c :: ds ∧ decode? bs = some ds := by
  rw [decode?_eq_some, entriesFrom_char, entriesFrom_seen] at h
  cases cs with
  | nil => cases h
  | cons d ds =>
    obtain ⟨hc, hds⟩ := List.cons.inj h
    exact ⟨ds, by rw [Option.some.inj hc], decode?_eq_some.2 hds⟩

/-- Only the first octet of a character is not one that continues a sequence. -/
theorem utf8EncodeChar_octets (c : Char) : ∃ b ks, String.utf8EncodeChar c = b :: ks ∧
    (b.toNat < 0x80 ∨ 0xC0 ≤ b.toNat) ∧ ∀ k ∈ ks, 0x80 ≤ k.toNat ∧ k.toNat < 0xC0 := by
  have hvalid : c.val.toNat < 0x110000 := by
    have hv : c.val.toNat < 0xD800 ∨ 0xDFFF < c.val.toNat ∧ c.val.toNat < 0x110000 := c.valid
    omega
  rw [String.utf8EncodeChar]
  generalize c.val.toNat = n at hvalid
  split
  · exact ⟨_, [], rfl, .inl (by rw [toNat_ofNat] <;> omega), by simp⟩
  · split
    · refine ⟨_, _, rfl, .inr (by rw [toNat_ofNat] <;> omega), ?_⟩
      simp only [List.mem_cons, List.not_mem_nil, or_false]
      rintro k rfl
      rw [toNat_ofNat] <;> omega
    · split
      · refine ⟨_, _, rfl, .inr (by rw [toNat_ofNat] <;> omega), ?_⟩
        simp only [List.mem_cons, List.not_mem_nil, or_false]
        rintro k (rfl | rfl) <;> rw [toNat_ofNat] <;> omega
      · refine ⟨_, _, rfl, .inr (by rw [toNat_ofNat] <;> omega), ?_⟩
        simp only [List.mem_cons, List.not_mem_nil, or_false]
        rintro k (rfl | rfl | rfl) <;> rw [toNat_ofNat] <;> omega

end RecordService.Text.Utf8
