import DataHub.Entry
import Mathlib.Data.Nat.Digits

/-!
The conversions of dataSample.c from a sample to text. A Data Sample holds its value in a union
whose member is named by the data type its resource records, not by the sample, so a sample is
modelled by the members of the union and each conversion reads the one its data type names.
JSON values are stored as strings. The timestamp is not read by the conversions and is left out.
snprintf, printf's %lf and the (int) cast are outside src/ and follow glibc and GCC.

The STRING, TRIGGER and JSON branches report LE_OVERFLOW exactly when the rendering and its NUL
do not fit. The BOOLEAN and NUMERIC branches compare snprintf's count with (int)valueBuffSize,
which keeps only the low 32 bits of the size: from 2^31 bytes on, a buffer can be reported too
small for a rendering it holds.
-/

namespace DataHub

inductive DataType where
  | trigger | boolean | numeric | string | json
  deriving DecidableEq, Repr

/-- A double as printf's %f reads it: a finite value ±mantissa·2^exponent, an infinity or a NaN,
each with its sign bit. -/
inductive Double where
  | finite (negative : Bool) (mantissa : Nat) (exponent : Int)
  | infinity (negative : Bool)
  | nan (negative : Bool)
  deriving DecidableEq, Repr

/-- The members of the value union of DataSample_t. -/
structure DataSample where
  boolean : Bool
  numeric : Double
  stringPtr : List Char
  deriving DecidableEq, Repr

/-- snprintf(buf, size, ...) for a format whose output is `text`: the length of the whole text,
and what the buffer holds after it, as much of the text as fits before the NUL; with size 0
nothing is written. -/
def snprintf (text : List Char) (size : Nat) : Int × Written (List Char) :=
  (text.length, if size = 0 then .untouched else .wrote (text.take (size - 1)))

/-- The (int) cast of a size_t: the low 32 bits read in two's complement. -/
def toCInt (size : Nat) : Int := Int.bmod size (2 ^ 32)

/-- n / P rounded to the nearest integer, ties to the even one. -/
def rne (n P : Nat) : Nat :=
  if 2 * (n % P) < P then n / P
  else if P < 2 * (n % P) then n / P + 1
  else if n / P % 2 = 0 then n / P else n / P + 1

/-- mantissa·2^exponent·10^6, rounded to the nearest integer, ties to even: the six decimals
%f prints in the default rounding mode. -/
def scaledMagnitude (mantissa : Nat) (exponent : Int) : Nat :=
  if 0 ≤ exponent then mantissa * 2 ^ exponent.toNat * 10 ^ 6
  else rne (mantissa * 10 ^ 6) (2 ^ (-exponent).toNat)

theorem rne_near (n P : Nat) (positive : 0 < P) :
    2 * n ≤ P * (2 * rne n P) + P ∧ P * (2 * rne n P) ≤ 2 * n + P := by
  have split := Nat.div_add_mod n P
  have small := Nat.mod_lt n positive
  have twice : P * (2 * (n / P)) = 2 * (P * (n / P)) := by ring
  have twiceNext : P * (2 * (n / P + 1)) = 2 * (P * (n / P)) + 2 * P := by ring
  unfold rne
  split_ifs <;> omega

theorem rne_near_rat (n P : Nat) (positive : 0 < P) : |(rne n P : ℚ) - n / P| ≤ 1 / 2 := by
  obtain ⟨below, above⟩ := rne_near n P positive
  have positive' : (0 : ℚ) < P := by exact_mod_cast positive
  have scaled : (n : ℚ) = P * (n / P) := by rw [mul_div_cancel₀ _ positive'.ne']
  have below' : (2 * n : ℚ) ≤ P * (2 * rne n P) + P := by exact_mod_cast below
  have above' : (P * (2 * rne n P) : ℚ) ≤ 2 * n + P := by exact_mod_cast above
  rw [scaled, mul_left_comm (2 : ℚ) (P : ℚ)] at below' above'
  have up : 2 * (rne n P : ℚ) ≤ 2 * (n / P) + 1 :=
    le_of_mul_le_mul_left (by rwa [mul_add, mul_one]) positive'
  have down : 2 * ((n : ℚ) / P) ≤ 2 * rne n P + 1 :=
    le_of_mul_le_mul_left (by rwa [mul_add, mul_one]) positive'
  rw [abs_le]
  constructor <;> linarith only [up, down]

theorem scaledMagnitude_near (mantissa : Nat) (exponent : Int) :
    |(scaledMagnitude mantissa exponent : ℚ) - mantissa * 2 ^ exponent * 10 ^ 6| ≤ 1 / 2 := by
  unfold scaledMagnitude
  split_ifs with nonneg
  · obtain ⟨k, rfl⟩ := Int.eq_ofNat_of_zero_le nonneg
    norm_num
  · obtain ⟨k, rfl⟩ : ∃ k : Nat, exponent = -(k : ℤ) := ⟨(-exponent).toNat, by omega⟩
    have exact : (mantissa : ℚ) * 2 ^ (-(k : ℤ)) * 10 ^ 6 = ((mantissa * 10 ^ 6 : ℕ) : ℚ) / ((2 ^ k : ℕ) : ℚ) := by
      push_cast
      rw [zpow_neg, zpow_natCast]
      ring
    rw [exact, neg_neg, Int.toNat_natCast]
    exact rne_near_rat _ _ (by positivity)

def digitChar (d : Nat) : Char := Char.ofNat (48 + d)

def decimal (n : Nat) : List Char :=
  if n = 0 then ['0'] else ((Nat.digits 10 n).map digitChar).reverse

def sixDigits (n : Nat) : List Char :=
  List.replicate (6 - (decimal n).length) '0' ++ decimal n

def signText (negative : Bool) : List Char := if negative then ['-'] else []

/-- printf's %lf: [-]ddd.dddddd for a finite double, and inf or nan for the others, after a '-'
when the sign bit is set. -/
def formatLf : Double → List Char
  | .finite negative mantissa exponent =>
    signText negative ++ decimal (scaledMagnitude mantissa exponent / 10 ^ 6) ++
      '.' :: sixDigits (scaledMagnitude mantissa exponent % 10 ^ 6)
  | .infinity negative => signText negative ++ "inf".toList
  | .nan negative => signText negative ++ "nan".toList

/-- dataSample_ConvertToJson: the result and the text the buffer holds before a NUL the call
wrote, or nothing written. -/
def dataSampleConvertToJson (sample : DataSample) (dataType : DataType) (valueBuffSize : Nat) :
    LeResult × Written (List Char) :=
  match dataType with
  | .trigger => Prod.map id .wrote (leUtf8Copy "null".toList valueBuffSize)
  | .boolean =>
    let (i, text) := snprintf (if sample.boolean then "true".toList else "false".toList) valueBuffSize
    (if i ≥ toCInt valueBuffSize then .overflow else .ok, text)
  | .numeric =>
    let (i, text) := snprintf (formatLf sample.numeric) valueBuffSize
    (if toCInt valueBuffSize ≤ i then .overflow else .ok, text)
  | .string =>
    if valueBuffSize < 3 then (.overflow, .untouched)
    else
      match leUtf8Copy sample.stringPtr (valueBuffSize - 1) with
      | (.ok, copied) =>
        if copied.length ≥ valueBuffSize - 1 - 1 then (.overflow, .wrote ('"' :: copied))
        else (.ok, .wrote ('"' :: copied ++ ['"']))
      | (_, copied) => (.overflow, .wrote ('"' :: copied))
  | .json => Prod.map id .wrote (leUtf8Copy sample.stringPtr valueBuffSize)

def dataSampleConvertToString (sample : DataSample) (dataType : DataType) (valueBuffSize : Nat) :
    LeResult × Written (List Char) :=
  if dataType = .string then Prod.map id .wrote (leUtf8Copy sample.stringPtr valueBuffSize)
  else dataSampleConvertToJson sample dataType valueBuffSize

/-- The text ConvertToJson renders a sample as: null, true or false, the %lf text, the string
between double quotes, or the JSON payload. -/
def jsonRendering (sample : DataSample) : DataType → List Char
  | .trigger => "null".toList
  | .boolean => if sample.boolean then "true".toList else "false".toList
  | .numeric => formatLf sample.numeric
  | .string => '"' :: sample.stringPtr ++ ['"']
  | .json => sample.stringPtr

theorem toCInt_of_lt {size : Nat} (small : size < 2 ^ 31) : toCInt size = size := by
  unfold toCInt
  rw [Int.bmod_def, Int.emod_eq_of_lt (by omega) (by omega), if_pos (by omega)]

theorem leUtf8Copy_check (src : List Char) (size : Nat) :
    (leUtf8Copy src size).1 = (if src.length + 1 ≤ size then .ok else .overflow) ∧
      ((leUtf8Copy src size).1 = .ok → Written.wrote (leUtf8Copy src size).2 = .wrote src) := by
  unfold leUtf8Copy
  by_cases fits : src.length < size
  · rw [if_pos fits, if_pos (by omega)]
    exact ⟨rfl, fun _ => rfl⟩
  · rw [if_neg fits, if_neg (by omega)]
    exact ⟨rfl, fun over => by cases over⟩

theorem count_check (text : List Char) {size : Nat} (positive : 1 ≤ size) :
    (if (size : Int) ≤ text.length then LeResult.overflow else .ok) =
        (if text.length + 1 ≤ size then .ok else .overflow) ∧
      ((if (size : Int) ≤ text.length then LeResult.overflow else .ok) = .ok →
        (if size = 0 then .untouched else .wrote (text.take (size - 1))) = Written.wrote text) := by
  rw [if_neg (show size ≠ 0 by omega)]
  by_cases fits : text.length + 1 ≤ size
  · rw [if_neg (by omega), if_pos fits, List.take_of_length_le (by omega)]
    exact ⟨rfl, fun _ => rfl⟩
  · rw [if_pos (by omega), if_neg fits]
    exact ⟨rfl, fun over => by cases over⟩

/-- Where the (int) cast keeps the size, ConvertToJson reports LE_OK exactly when the rendering
fits with its NUL, and then the buffer holds the rendering. -/
theorem dataSampleConvertToJson_of_lossless (sample : DataSample) (dataType : DataType) {size : Nat}
    (positive : 1 ≤ size) (lossless : dataType = .boolean ∨ dataType = .numeric → size < 2 ^ 31) :
    (dataSampleConvertToJson sample dataType size).1 =
        (if (jsonRendering sample dataType).length + 1 ≤ size then .ok else .overflow) ∧
      ((dataSampleConvertToJson sample dataType size).1 = .ok →
        (dataSampleConvertToJson sample dataType size).2 = .wrote (jsonRendering sample dataType)) := by
  cases dataType with
  | trigger | json => exact leUtf8Copy_check _ size
  | boolean =>
    simp only [dataSampleConvertToJson, jsonRendering, snprintf, toCInt_of_lt (lossless (.inl rfl)), ge_iff_le]
    exact count_check _ positive
  | numeric =>
    simp only [dataSampleConvertToJson, jsonRendering, snprintf, toCInt_of_lt (lossless (.inr rfl))]
    exact count_check _ positive
  | string =>
    simp only [dataSampleConvertToJson, jsonRendering, leUtf8Copy_eq, List.length_cons, List.length_append,
      List.length_singleton, List.length_nil]
    by_cases tiny : size < 3
    · rw [if_pos tiny, if_neg (by omega)]
      exact ⟨rfl, fun over => by cases over⟩
    · rw [if_neg tiny]
      by_cases copied : sample.stringPtr.length < size - 1
      · simp only [copied, if_true, List.take_of_length_le (show sample.stringPtr.length ≤ size - 1 - 1 by omega)]
        by_cases room : sample.stringPtr.length ≥ size - 1 - 1
        · rw [if_pos room, if_neg (by omega)]
          exact ⟨rfl, fun over => by cases over⟩
        · rw [if_neg room, if_pos (by omega)]
          exact ⟨rfl, fun _ => rfl⟩
      · simp only [copied, if_false]
        rw [if_neg (by omega)]
        exact ⟨rfl, fun over => by cases over⟩

/-- From 2^31 bytes on, (int)valueBuffSize is negative: BOOLEAN true is written whole with its
NUL and still reported as LE_OVERFLOW. -/
theorem boolean_fits_but_overflows (numeric : Double) (stringPtr : List Char) :
    (jsonRendering ⟨true, numeric, stringPtr⟩ .boolean).length + 1 ≤ 2 ^ 31 ∧
      dataSampleConvertToJson ⟨true, numeric, stringPtr⟩ .boolean (2 ^ 31) = (.overflow, .wrote "true".toList) :=
  ⟨by simp [jsonRendering], rfl⟩

end DataHub
