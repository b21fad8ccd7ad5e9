/-
`int.to_bytes` and `int.from_bytes`.

The magnitude is exported into the buffer before its size is compared with the
length, and the bytes are put together in a word of 64 bits whose last half, and
one value more, fails an assertion.
-/
import Mathlib.Data.Nat.Digits.Lemmas
import Pylang.Lib.Codec
import Pylang.Tagged.RtValue

namespace Pylang.Runtime

open Tagged (fitsSlong fitsSlong_iff)

/-- An argument of the two functions; an object of another type with its name. -/
inductive BytesArg where
  | int (n : Int)
  | str (s : String)
  | bytes (bs : List Byte)
  | other (typeName : String)
  deriving DecidableEq

def BytesArg.typeName : BytesArg → String
  | .int _ => "int"
  | .str _ => "str"
  | .bytes _ => "bytes"
  | .other typeName => typeName

/-- How a call ends without a result. -/
inductive BytesStop where
  | typeError (message : String)
  | valueError (message : String)
  | overflowError (message : String)
  /-- An assertion fails, or the code ends in `TODO`. -/
  | abort
  /-- Bytes are written past the end of the buffer. -/
  | undefined
  deriving DecidableEq

/-- The bytes that `mpz_export` gives for a magnitude, the lowest first, and none for 0. -/
def exportBytes (n : Nat) : List Byte := (Nat.digits 256 n).map (BitVec.ofNat 8)

/-- `PyInteger::to_bytes`. -/
def toBytes (n : Int) (args : List BytesArg) : Except BytesStop (List Byte) :=
  match args with
  | [length, byteorder] =>
    match length with
    | .int length =>
      match byteorder with
      | .str byteorder =>
        if fitsSlong length then
          if length < 0 then .error (.typeError "length argument must be non-negative")
          else if byteorder ≠ "little" ∧ byteorder ≠ "big" then
            .error (.valueError "byteorder must be either 'little' or 'big'")
          else
            let bytes := exportBytes n.natAbs
            -- the comparison of the count with the length comes after the export
            if length.toNat < bytes.length then .error .undefined
            else
              let padding := List.replicate (length.toNat - bytes.length) 0
              .ok (if byteorder = "little" then bytes ++ padding else padding ++ bytes.reverse)
        else .error .abort
      | byteorder =>
        .error (.typeError s!"to_bytes() argument 'byteorder' must be str, not {byteorder.typeName}")
    | length => .error (.typeError s!"'{length.typeName}' object cannot be interpreted as an integer")
  | _ => .error (.typeError "to_bytes expected two arguments")

/-- The loop of `from_bytes`, from the lowest byte on. -/
def assemble (value : BitVec 64) (i : Nat) : List Byte → BitVec 64
  | [] => value
  | b :: bytes => assemble (value ||| b.setWidth 64 <<< (i * 8)) (i + 1) bytes

/-- `PyInteger::from_bytes`, of `int` itself. -/
def fromBytes (args : List BytesArg) : Except BytesStop Int :=
  match args with
  | [bytes, byteorder] =>
    match bytes with
    | .bytes bytes =>
      match byteorder with
      | .str byteorder =>
        if byteorder ≠ "little" ∧ byteorder ≠ "big" then .error (.valueError "byteorder must be either 'little' or 'big'")
        else if 8 < bytes.length then .error .abort
        else
          let value := assemble 0 0 (if byteorder ≠ "big" then bytes else bytes.reverse)
          if value.toNat < 2 ^ 63 - 1 then .ok value.toInt else .error .abort
      | byteorder =>
        .error (.typeError s!"to_bytes() argument 'byteorder' must be str, not {byteorder.typeName}")
    | bytes => .error (.typeError s!"'{bytes.typeName}' object cannot be interpreted as a bytes array")
  | _ => .error (.typeError "from_bytes expected two arguments")

/-- What is asked of the two functions: a number that fits comes back from as many bytes as asked for, and one that does not
is refused before anything is written. -/
def RoundTrips (n length : Nat) (byteorder : String) : Prop :=
  if n < 256 ^ length then
    ∃ bs, toBytes n [.int length, .str byteorder] = .ok bs ∧ bs.length = length ∧
      fromBytes [.bytes bs, .str byteorder] = .ok (n : Int)
  else ∃ message, toBytes n [.int length, .str byteorder] = .error (.overflowError message)

/-! ## The bytes of a number -/

/-- The number of bytes, the lowest first. -/
def bytesValue (bs : List Byte) : Nat := Nat.ofDigits 256 (bs.map BitVec.toNat)

theorem exportBytes_toNat (n : Nat) : (exportBytes n).map BitVec.toNat = Nat.digits 256 n := by
  unfold exportBytes
  rw [List.map_map]
  refine (List.map_congr_left fun d hd => ?_).trans (List.map_id _)
  exact Nat.mod_eq_of_lt (Nat.digits_lt_base (by decide) hd)

theorem length_exportBytes_le_iff {n length : Nat} : (exportBytes n).length ≤ length ↔ n < 256 ^ length := by
  unfold exportBytes
  rw [List.length_map]
  exact Nat.digits_length_le_iff (by decide) n

theorem bytesValue_padded (n k : Nat) : bytesValue (exportBytes n ++ List.replicate k 0) = n := by
  unfold bytesValue
  rw [List.map_append, exportBytes_toNat, List.map_replicate]
  exact (Nat.ofDigits_append_replicate_zero _).trans (Nat.ofDigits_digits 256 n)

/-- The loop adds bytes above those that it has. -/
theorem assemble_toNat (bs : List Byte) : ∀ (value : BitVec 64) (i : Nat), value.toNat < 2 ^ (i * 8) → i + bs.length ≤ 8 →
    (assemble value i bs).toNat = value.toNat + 2 ^ (i * 8) * bytesValue bs := by
  induction bs with
  | nil => simp [assemble, bytesValue]
  | cons b bs ih =>
    intro value i hvalue hlen
    rw [List.length_cons] at hlen
    have hpow : 2 ^ ((i + 1) * 8) = 2 ^ (i * 8) * 256 := by rw [Nat.add_mul, Nat.pow_add]
    have hlt : b.toNat * 2 ^ (i * 8) < 2 ^ (i * 8) * 256 := by
      rw [Nat.mul_comm]
      exact Nat.mul_lt_mul_of_pos_left b.isLt (Nat.two_pow_pos _)
    have hle : 2 ^ ((i + 1) * 8) ≤ 2 ^ 64 := Nat.pow_le_pow_right (by decide) (by omega)
    have hbyte : (b.setWidth 64 <<< (i * 8)).toNat = b.toNat * 2 ^ (i * 8) := by
      have hmod : b.toNat % 2 ^ 64 = b.toNat := Nat.mod_eq_of_lt (by omega)
      rw [BitVec.toNat_shiftLeft, BitVec.toNat_setWidth, hmod, Nat.shiftLeft_eq, Nat.mod_eq_of_lt (by omega)]
    have hor : (value ||| b.setWidth 64 <<< (i * 8)).toNat = value.toNat + b.toNat * 2 ^ (i * 8) := by
      rw [BitVec.toNat_or, hbyte, Nat.or_comm, ← Nat.shiftLeft_eq, ← Nat.shiftLeft_add_eq_or_of_lt hvalue, Nat.add_comm]
    have hnext : (value ||| b.setWidth 64 <<< (i * 8)).toNat < 2 ^ ((i + 1) * 8) := by
      have hmul : (b.toNat + 1) * 2 ^ (i * 8) ≤ 256 * 2 ^ (i * 8) := Nat.mul_le_mul_right _ b.isLt
      rw [Nat.succ_mul] at hmul
      rw [hor, hpow]
      omega
    rw [assemble, ih _ (i + 1) hnext (by omega), hor, hpow]
    unfold bytesValue
    rw [List.map_cons, Nat.ofDigits_cons]
    ring

theorem assemble_padded {n k : Nat} (hlen : (exportBytes n).length + k ≤ 8) :
    (assemble 0 0 (exportBytes n ++ List.replicate k 0)).toNat = n := by
  rw [assemble_toNat _ 0 0 (by decide) (by rw [List.length_append, List.length_replicate]; omega), bytesValue_padded]
  simp

/-! ## The round trip -/

section

variable {n length : Nat} {byteorder : String}

theorem not_refused (horder : byteorder = "little" ∨ byteorder = "big") : ¬ (byteorder ≠ "little" ∧ byteorder ≠ "big") :=
  fun h => horder.elim h.1 h.2

theorem toBytes_eq (horder : byteorder = "little" ∨ byteorder = "big") (hfits : fitsSlong length = true)
    (hlt : n < 256 ^ length) : toBytes n [.int length, .str byteorder] =
      .ok (if byteorder = "little" then exportBytes n ++ List.replicate (length - (exportBytes n).length) 0
        else List.replicate (length - (exportBytes n).length) 0 ++ (exportBytes n).reverse) := by
  have hle := length_exportBytes_le_iff.mpr hlt
  unfold toBytes
  dsimp only
  rw [if_pos hfits, if_neg (show ¬ (length : Int) < 0 by omega), if_neg (not_refused horder)]
  rw [Int.natAbs_natCast, Int.toNat_natCast, if_neg (by omega)]

theorem toBytes_overflow (horder : byteorder = "little" ∨ byteorder = "big") (hlt : ¬ n < 256 ^ length) :
    toBytes n [.int length, .str byteorder] = .error (if fitsSlong length then .undefined else .abort) := by
  have hlong := Nat.not_le.mp fun h => hlt (length_exportBytes_le_iff.mp h)
  unfold toBytes
  dsimp only
  split
  next hfits =>
    rw [if_neg (show ¬ (length : Int) < 0 by omega), if_neg (not_refused horder)]
    rw [Int.natAbs_natCast, Int.toNat_natCast, if_pos hlong]
  next => rfl

/-- The bytes in the order of the argument are read back, if there are at most eight. -/
theorem fromBytes_eq (horder : byteorder = "little" ∨ byteorder = "big") (hlt : n < 256 ^ length) :
    fromBytes [.bytes (if byteorder = "little" then exportBytes n ++ List.replicate (length - (exportBytes n).length) 0
        else List.replicate (length - (exportBytes n).length) 0 ++ (exportBytes n).reverse), .str byteorder] =
      if 8 < length ∨ 2 ^ 63 - 1 ≤ n then .error .abort else .ok (n : Int) := by
  have hle := length_exportBytes_le_iff.mpr hlt
  have hlow : (if byteorder ≠ "big" then
      (if byteorder = "little" then exportBytes n ++ List.replicate (length - (exportBytes n).length) 0
        else List.replicate (length - (exportBytes n).length) 0 ++ (exportBytes n).reverse)
      else (if byteorder = "little" then exportBytes n ++ List.replicate (length - (exportBytes n).length) 0
        else List.replicate (length - (exportBytes n).length) 0 ++ (exportBytes n).reverse).reverse) =
      exportBytes n ++ List.replicate (length - (exportBytes n).length) 0 := by
    rcases horder with rfl | rfl
    · rfl
    · rw [if_neg (not_not.mpr rfl), if_neg (by decide), List.reverse_append, List.reverse_reverse, List.reverse_replicate]
  have hlength : (if byteorder = "little" then exportBytes n ++ List.replicate (length - (exportBytes n).length) 0
      else List.replicate (length - (exportBytes n).length) 0 ++ (exportBytes n).reverse).length = length := by
    split
    · rw [List.length_append, List.length_replicate]
      omega
    · rw [List.length_append, List.length_replicate, List.length_reverse]
      omega
  unfold fromBytes
  dsimp only
  rw [if_neg (not_refused horder), hlength, hlow]
  by_cases hlong : 8 < length
  · rw [if_pos hlong, if_pos (.inl hlong)]
  · have hvalue := assemble_padded (n := n) (k := length - (exportBytes n).length) (by omega)
    rw [if_neg hlong, hvalue]
    by_cases hmax : n < 2 ^ 63 - 1
    · rw [if_pos hmax, if_neg (by omega), BitVec.toInt_eq_toNat_of_lt (by omega), hvalue]
    · rw [if_neg hmax, if_pos (.inr (by omega))]

/-- **The round trip**, of at most eight bytes and below the greatest word. -/
theorem roundTrips_iff (n length : Nat) (byteorder : String) (horder : byteorder = "little" ∨ byteorder = "big") :
    RoundTrips n length byteorder ↔ n < 256 ^ length ∧ length ≤ 8 ∧ n < 2 ^ 63 - 1 := by
  unfold RoundTrips
  split
  next hlt =>
    constructor
    · intro h
      obtain ⟨bs, hto, hlen, hback⟩ := h
      have hfits : fitsSlong length = true := by
        unfold toBytes at hto
        dsimp only at hto
        split at hto
        next hfits => exact hfits
        next => cases hto
      cases (toBytes_eq horder hfits hlt).symm.trans hto
      rw [fromBytes_eq horder hlt] at hback
      split at hback
      next => cases hback
      next hcond => exact ⟨hlt, by omega, by omega⟩
    · intro h
      obtain ⟨-, hlen, hmax⟩ := h
      have hle := length_exportBytes_le_iff.mpr hlt
      refine ⟨_, toBytes_eq horder (fitsSlong_iff.mpr (by omega)) hlt, ?_, ?_⟩
      · split
        · rw [List.length_append, List.length_replicate]
          omega
        · rw [List.length_append, List.length_replicate, List.length_reverse]
          omega
      · rw [fromBytes_eq horder hlt, if_neg (by omega)]
  next hlt =>
    constructor
    · intro h
      obtain ⟨message, herror⟩ := h
      rw [toBytes_overflow horder hlt] at herror
      split at herror <;> cases herror
    · exact fun h => absurd h.1 hlt

/-- `(3425).to_bytes(2, 'little')`. -/
theorem roundTrips_two : RoundTrips 3425 2 "little" :=
  (roundTrips_iff 3425 2 "little" (.inl rfl)).mpr ⟨by decide, by decide, by decide⟩

/-- `(2**63).to_bytes(8, 'big')` does not come back, and `(256).to_bytes(1, 'big')` writes past its buffer. -/
theorem roundTrips_fails : ¬ RoundTrips (2 ^ 63) 8 "big" ∧ toBytes 256 [.int 1, .str "big"] = .error .undefined ∧
    ¬ RoundTrips 256 1 "big" := by
  have hover : toBytes 256 [.int 1, .str "big"] = .error .undefined :=
    toBytes_overflow (.inr rfl) (by decide)
  refine ⟨fun h => ?_, hover, fun h => ?_⟩
  · unfold RoundTrips at h
    rw [if_pos (by decide)] at h
    obtain ⟨bs, hto, -, hback⟩ := h
    cases (toBytes_eq (.inr rfl) (by decide) (by decide)).symm.trans hto
    rw [fromBytes_eq (.inr rfl) (by decide), if_pos (.inr (by decide))] at hback
    cases hback
  · unfold RoundTrips at h
    rw [if_neg (by decide)] at h
    obtain ⟨message, herror⟩ := h
    cases hover.symm.trans herror

end

end Pylang.Runtime
