/-!
# UTF-8

Octets are decoded by a machine that remembers the sequence it is inside of. What comes out is one
entry per scalar value, and one `none` per malformed piece: the longest run of octets that begins
some sequence and does not go on as one.

`decode?` refuses malformed input; `decodeLossy` puts U+FFFD for each malformed piece.
`decode?_encode` says that the octets of a text are decoded to it.
-/

namespace RecordService.Text.Utf8

/-- A sequence that has begun: `missing` octets are still to come, the next of them within
`low`–`high`, and `bits` is the value so far. -/
structure Pending where
  missing : Nat
  low : UInt8
  high : UInt8
  bits : Nat
deriving DecidableEq, Repr

/-- The sequence that an octet begins. The bounds on the second octet exclude overlong forms,
surrogates and values past U+10FFFF. -/
def lead? (b : UInt8) : Option Pending :=
  if b < 0xC2 then none
  else if b < 0xE0 then some ⟨1, 0x80, 0xBF, b.toNat % 32⟩
  else if b = 0xE0 then some ⟨2, 0xA0, 0xBF, 0⟩
  else if b = 0xED then some ⟨2, 0x80, 0x9F, 13⟩
  else if b < 0xF0 then some ⟨2, 0x80, 0xBF, b.toNat % 16⟩
  else if b = 0xF0 then some ⟨3, 0x90, 0xBF, 0⟩
  else if b < 0xF4 then some ⟨3, 0x80, 0xBF, b.toNat % 8⟩
  else if b = 0xF4 then some ⟨3, 0x80, 0x8F, 4⟩
  else none

/-- What an octet does outside of any sequence. -/
def start (b : UInt8) : List (Option Char) × Option Pending :=
  if b < 0x80 then ([some (Char.ofNat b.toNat)], none)
  else match lead? b with
    | none => ([none], none)
    | some p => ([], some p)

/-- What an octet does: the entries it completes, and the sequence it leaves open. -/
def step : Option Pending → UInt8 → List (Option Char) × Option Pending
  | none, b => start b
  | some p, b =>
    if p.low ≤ b ∧ b ≤ p.high then
      let bits := p.bits * 64 + b.toNat % 64
      if p.missing ≤ 1 then ([some (Char.ofNat bits)], none)
      else ([], some ⟨p.missing - 1, 0x80, 0xBF, bits⟩)
    else
      let (out, next) := start b
      (none :: out, next)

/-- The entries of the octets, after those already `seen` (last first). -/
def entriesFrom (p : Option Pending) (seen : List (Option Char)) : List UInt8 → List (Option Char)
  | [] => (if p.isSome then none :: seen else seen).reverse
  | b :: bs =>
    let (out, next) := step p b
    entriesFrom next (out.reverse ++ seen) bs

/-- One entry per scalar value, `none` for each malformed piece. -/
def entries (bs : List UInt8) : List (Option Char) :=
  entriesFrom none [] bs

/-- The text the octets encode, if they are well-formed. -/
def decode? (bs : List UInt8) : Option (List Char) :=
  (entries bs).mapM id

/-- The text of the octets with U+FFFD for each malformed piece. -/
def decodeLossy (bs : List UInt8) : List Char :=
  (entries bs).map (·.getD '\uFFFD')

/-- The octets of a text. -/
def encode (cs : List Char) : List UInt8 :=
  cs.flatMap String.utf8EncodeChar

/-! ## The machine keeps what it has seen -/

theorem entriesFrom_seen (bs : List UInt8) : ∀ (p : Option Pending) (seen : List (Option Char)),
    entriesFrom p seen bs = seen.reverse ++ entriesFrom p [] bs := by
  induction bs with
  | nil => intro p seen; cases p <;> simp [entriesFrom]
  | cons b bs ih =>
    intro p seen
    simp only [entriesFrom]
    rw [ih, ih (step p b).2 ((step p b).1.reverse ++ [])]
    simp

/-! ## What is encoded is decoded -/

theorem lead?_two : ∀ k < 32, 2 ≤ k →
    lead? (UInt8.ofNat (k + 192)) = some ⟨1, 0x80, 0xBF, k⟩ := by
  decide

theorem lead?_three : ∀ k < 16, lead? (UInt8.ofNat (k + 224)) =
    some ⟨2, if k = 0 then 0xA0 else 0x80, if k = 13 then 0x9F else 0xBF, k⟩ := by
  decide

theorem lead?_four : ∀ k < 5, lead? (UInt8.ofNat (k + 240)) =
    some ⟨3, if k = 0 then 0x90 else 0x80, if k = 4 then 0x8F else 0xBF, k⟩ := by
  decide

theorem toNat_ofNat {n : Nat} (h : n < 256) : (UInt8.ofNat n).toNat = n := by
  simp
  omega

/-- An octet outside of any sequence begins one. -/
theorem step_lead {n : Nat} {p : Pending} (h : 0x80 ≤ n) (hn : n < 256)
    (hp : lead? (UInt8.ofNat n) = some p) : step none (UInt8.ofNat n) = ([], some p) := by
  have hb : ¬UInt8.ofNat n < 0x80 := by
    rw [UInt8.lt_iff_toNat_lt, toNat_ofNat hn]
    simp
    omega
  simp [step, start, hb, hp]

/-- The last octet of a sequence completes it. -/
theorem step_last {k bits : Nat} {low high : UInt8} (hk : k < 64) (hlow : low.toNat ≤ k + 128)
    (hhigh : k + 128 ≤ high.toNat) :
    step (some ⟨1, low, high, bits⟩) (UInt8.ofNat (k + 128)) =
      ([some (Char.ofNat (bits * 64 + k))], none) := by
  have hm : (k + 128) % 64 = k := by omega
  simp only [step, UInt8.le_iff_toNat_le, toNat_ofNat (show k + 128 < 256 by omega), hm]
  rw [if_pos ⟨hlow, hhigh⟩, if_pos (Nat.le_refl 1)]

/-- An octet before the last leaves one less to come. -/
theorem step_more {missing k bits : Nat} {low high : UInt8} (hk : k < 64)
    (hlow : low.toNat ≤ k + 128) (hhigh : k + 128 ≤ high.toNat) :
    step (some ⟨missing + 2, low, high, bits⟩) (UInt8.ofNat (k + 128)) =
      ([], some ⟨missing + 1, 0x80, 0xBF, bits * 64 + k⟩) := by
  have hm : (k + 128) % 64 = k := by omega
  simp only [step, UInt8.le_iff_toNat_le, toNat_ofNat (show k + 128 < 256 by omega), hm]
  rw [if_pos ⟨hlow, hhigh⟩, if_neg (by omega)]
  rfl

theorem entriesFrom_step {p q : Option Pending} {b : UInt8} {out : List (Option Char)}
    (h : step p b = (out, q)) (seen : List (Option Char)) (rest : List UInt8) :
    entriesFrom p seen (b :: rest) = entriesFrom q (out.reverse ++ seen) rest := by
  simp [entriesFrom, h]

/-- The octets of a character are decoded to it. -/
theorem entriesFrom_char (c : Char) (seen : List (Option Char)) (rest : List UInt8) :
    entriesFrom none seen (String.utf8EncodeChar c ++ rest) =
      entriesFrom none (some c :: seen) rest := by
  have hv : c.val.toNat < 0xD800 ∨ (0xDFFF < c.val.toNat ∧ c.val.toNat < 0x110000) := c.valid
  have hc : Char.ofNat c.val.toNat = c := Char.ofNat_toNat c
  simp only [String.utf8EncodeChar]
  generalize c.val.toNat = n at hv hc
  by_cases h1 : n ≤ 0x7F
  · have hlt : UInt8.ofNat n < 0x80 := by
      rw [UInt8.lt_iff_toNat_lt, toNat_ofNat (by omega)]
      simp
      omega
    have hs : step none (UInt8.ofNat n) = ([some c], none) := by
      simp only [step, start, hlt, if_true, toNat_ofNat (show n < 256 by omega), hc]
    rw [if_pos h1, List.singleton_append, entriesFrom_step hs]
    rfl
  rw [if_neg h1]
  by_cases h2 : n ≤ 0x7FF
  · rw [if_pos h2, show n / 64 % 32 = n / 64 by omega]
    simp only [List.cons_append, List.nil_append]
    rw [entriesFrom_step (step_lead (by omega) (by omega) (lead?_two _ (by omega) (by omega))),
      entriesFrom_step (step_last (by omega) (by simp) (by simp; omega)),
      show n / 64 * 64 + n % 64 = n by omega, hc]
    rfl
  rw [if_neg h2]
  by_cases h3 : n ≤ 0xFFFF
  · rw [if_pos h3, show n / 4096 % 16 = n / 4096 by omega]
    simp only [List.cons_append, List.nil_append]
    rw [entriesFrom_step (step_lead (by omega) (by omega) (lead?_three _ (by omega))),
      entriesFrom_step (step_more (by omega) (by (split <;> simp); omega)
        (by split <;> simp <;> omega)),
      entriesFrom_step (step_last (by omega) (by simp) (by simp; omega)),
      show (n / 4096 * 64 + n / 64 % 64) * 64 + n % 64 = n by omega, hc]
    rfl
  · rw [if_neg h3, show n / 262144 % 8 = n / 262144 by omega]
    simp only [List.cons_append, List.nil_append]
    rw [entriesFrom_step (step_lead (by omega) (by omega) (lead?_four _ (by omega))),
      entriesFrom_step (step_more (by omega) (by (split <;> simp); omega)
        (by split <;> simp <;> omega)),
      entriesFrom_step (step_more (by omega) (by simp) (by simp; omega)),
      entriesFrom_step (step_last (by omega) (by simp) (by simp; omega)),
      show ((n / 262144 * 64 + n / 4096 % 64) * 64 + n / 64 % 64) * 64 + n % 64 = n by omega, hc]
    rfl

theorem entriesFrom_encode (cs : List Char) (seen : List (Option Char)) :
    entriesFrom none seen (encode cs) = seen.reverse ++ cs.map some := by
  induction cs generalizing seen with
  | nil => simp [encode, entriesFrom]
  | cons c cs ih =>
    have h : encode (c :: cs) = String.utf8EncodeChar c ++ encode cs := by simp [encode]
    rw [h, entriesFrom_char, ih]
    simp

/-- What is encoded is decoded. -/
theorem decode?_encode (cs : List Char) : decode? (encode cs) = some cs := by
  rw [decode?, entries, entriesFrom_encode]
  induction cs with
  | nil => rfl
  | cons c cs ih =>
    simp only [List.reverse_nil, List.nil_append] at ih ⊢
    rw [List.map_cons, List.mapM_cons, ih]
    rfl

end RecordService.Text.Utf8
