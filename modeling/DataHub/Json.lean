import DataHub.Sample

/-!
What dataSample_ConvertToJson's text means as JSON. The value grammar of RFC 8259 is written
rule by rule as relations between a text, the value it denotes and the text that follows it.
ConvertToJson escapes nothing and prints numbers with %lf: a string with a quotation mark, a
backslash or a control character, and an infinite or NaN number, give text that is not JSON. For
the other samples the text it writes is JSON: null, the boolean, the string, the payload of a
JSON sample, and the number rounded to six decimals.
-/

namespace DataHub

inductive JsonValue where
  | null
  | bool (b : Bool)
  | number (q : ℚ)
  | string (chars : List Char)
  | array (elements : List JsonValue)
  | object (members : List (List Char × JsonValue))

/-- ws = *( %x20 / %x09 / %x0A / %x0D ) -/
def Ws (w : List Char) : Prop := ∀ c ∈ w, c = ' ' ∨ c = '\t' ∨ c = '\n' ∨ c = '\r'

def digitsValue (ds : List Char) : Nat := Nat.ofDigits 10 (ds.reverse.map fun d => d.toNat - 48)

/-- int = zero / ( digit1-9 *DIGIT ) -/
def IsIntPart (ds : List Char) : Prop :=
  ds = ['0'] ∨ ∃ d rest, ds = d :: rest ∧ d.isDigit ∧ d ≠ '0' ∧ ∀ c ∈ rest, c.isDigit

/-- frac = decimal-point 1*DIGIT, or none; with the fraction it adds. -/
inductive JFrac : List Char → ℚ → Prop
  | none : JFrac [] 0
  | digits {ds : List Char} : ds ≠ [] → (∀ d ∈ ds, d.isDigit) →
      JFrac ('.' :: ds) ((digitsValue ds : ℚ) / 10 ^ ds.length)

/-- exp = e [ minus / plus ] 1*DIGIT, or none; with the power of ten it scales by. -/
inductive JExp : List Char → ℤ → Prop
  | none : JExp [] 0
  | digits {e : Char} {sign ds : List Char} : (e = 'e' ∨ e = 'E') → (sign = [] ∨ sign = ['+'] ∨ sign = ['-']) →
      ds ≠ [] → (∀ d ∈ ds, d.isDigit) →
      JExp (e :: sign ++ ds) (if sign = ['-'] then -(digitsValue ds : ℤ) else digitsValue ds)

/-- number = [ minus ] int [ frac ] [ exp ] -/
inductive JNumber : List Char → ℚ → Prop
  | mk {minus int frac exp : List Char} {f : ℚ} {x : ℤ} : (minus = [] ∨ minus = ['-']) → IsIntPart int →
      JFrac frac f → JExp exp x →
      JNumber (minus ++ int ++ frac ++ exp) ((if minus = [] then 1 else -1) * (digitsValue int + f) * 10 ^ x)

def hexValue (hex : List Char) : Nat :=
  hex.foldl (fun n d => 16 * n + if d.isDigit then d.toNat - 48 else d.toLower.toNat - 87) 0

def isHexDigit (c : Char) : Bool := c.isDigit || ('a' ≤ c.toLower && c.toLower ≤ 'f')

/-- escape = %x5C ( %x22 / %x5C / %x2F / %x62 / %x66 / %x6E / %x72 / %x74 / %x75 4HEXDIG ),
after the backslash, with the character it stands for. A \u escape stands for the character of
its code; surrogate pairs are not combined. -/
inductive JEscape : List Char → Char → Prop
  | quote : JEscape ['"'] '"'
  | backslash : JEscape ['\\'] '\\'
  | slash : JEscape ['/'] '/'
  | backspace : JEscape ['b'] '\x08'
  | formFeed : JEscape ['f'] '\x0c'
  | lineFeed : JEscape ['n'] '\n'
  | carriageReturn : JEscape ['r'] '\r'
  | tab : JEscape ['t'] '\t'
  | unicode {hex : List Char} : hex.length = 4 → (∀ d ∈ hex, isHexDigit d) → JEscape ('u' :: hex) (Char.ofNat (hexValue hex))

/-- *char between the quotation marks of a string, with the characters it denotes;
unescaped = %x20-21 / %x23-5B / %x5D-10FFFF. -/
inductive JChars : List Char → List Char → Prop
  | nil : JChars [] []
  | unescaped {c : Char} {s cs : List Char} : c ≠ '"' → c ≠ '\\' → 32 ≤ c.toNat → JChars s cs → JChars (c :: s) (c :: cs)
  | escaped {e : List Char} {c : Char} {s cs : List Char} : JEscape e c → JChars s cs → JChars ('\\' :: e ++ s) (c :: cs)

mutual

/-- value = false / null / true / object / array / number / string: `text` starts with a value
denoting `v`, and `rest` follows it. -/
inductive JValue : List Char → JsonValue → List Char → Prop
  | null (rest : List Char) : JValue (['n', 'u', 'l', 'l'] ++ rest) .null rest
  | true (rest : List Char) : JValue (['t', 'r', 'u', 'e'] ++ rest) (.bool true) rest
  | false (rest : List Char) : JValue (['f', 'a', 'l', 's', 'e'] ++ rest) (.bool false) rest
  | number {num rest : List Char} {q : ℚ} : JNumber num q → JValue (num ++ rest) (.number q) rest
  | string {s cs rest : List Char} : JChars s cs → JValue ('"' :: s ++ '"' :: rest) (.string cs) rest
  | emptyArray {w rest : List Char} : Ws w → JValue ('[' :: w ++ ']' :: rest) (.array []) rest
  | array {s rest : List Char} {vs : List JsonValue} : JElements s vs (']' :: rest) →
      JValue ('[' :: s) (.array vs) rest
  | emptyObject {w rest : List Char} : Ws w → JValue ('\x7b' :: w ++ '\x7d' :: rest) (.object []) rest
  | object {s rest : List Char} {ms : List (List Char × JsonValue)} : JMembers s ms ('\x7d' :: rest) →
      JValue ('\x7b' :: s) (.object ms) rest

/-- value *( value-separator value ), each value between whitespace, up to `rest`. -/
inductive JElements : List Char → List JsonValue → List Char → Prop
  | last {w₁ s w₂ rest : List Char} {v : JsonValue} : Ws w₁ → JValue s v (w₂ ++ rest) → Ws w₂ →
      JElements (w₁ ++ s) [v] rest
  | cons {w₁ s w₂ t rest : List Char} {v : JsonValue} {vs : List JsonValue} : Ws w₁ → JValue s v (w₂ ++ ',' :: t) →
      Ws w₂ → JElements t vs rest → JElements (w₁ ++ s) (v :: vs) rest

/-- member *( value-separator member ), member = string name-separator value, up to `rest`. -/
inductive JMembers : List Char → List (List Char × JsonValue) → List Char → Prop
  | last {w₁ k w₂ w₃ s w₄ rest ks : List Char} {v : JsonValue} : Ws w₁ → JChars k ks → Ws w₂ → Ws w₃ →
      JValue s v (w₄ ++ rest) → Ws w₄ → JMembers (w₁ ++ '"' :: k ++ '"' :: w₂ ++ ':' :: w₃ ++ s) [(ks, v)] rest
  | cons {w₁ k w₂ w₃ s w₄ t rest ks : List Char} {v : JsonValue} {ms : List (List Char × JsonValue)} : Ws w₁ →
      JChars k ks → Ws w₂ → Ws w₃ → JValue s v (w₄ ++ ',' :: t) → Ws w₄ → JMembers t ms rest →
      JMembers (w₁ ++ '"' :: k ++ '"' :: w₂ ++ ':' :: w₃ ++ s) ((ks, v) :: ms) rest

end

/-- JSON-text = ws value ws -/
inductive JsonText : List Char → JsonValue → Prop
  | mk {w₁ s w₂ : List Char} {v : JsonValue} : Ws w₁ → JValue s v w₂ → Ws w₂ → JsonText (w₁ ++ s) v

section Digits

theorem digitChar_spec {d : Nat} (small : d < 10) :
    (digitChar d).isDigit ∧ (digitChar d).toNat - 48 = d ∧ (digitChar d = '0' → d = 0) := by
  interval_cases d <;> decide

theorem decimal_isDigit (n : Nat) : ∀ c ∈ decimal n, c.isDigit := by
  unfold decimal
  split_ifs
  · simp
  · simp only [List.mem_reverse, List.mem_map]
    rintro c ⟨d, member, rfl⟩
    exact (digitChar_spec (Nat.digits_lt_base (by norm_num) member)).1

theorem digitsValue_decimal (n : Nat) : digitsValue (decimal n) = n := by
  unfold decimal digitsValue
  split_ifs with zero
  · subst zero; rfl
  · rw [List.reverse_reverse, List.map_map]
    conv => rhs; rw [← Nat.ofDigits_digits 10 n]
    congr 1
    refine (List.map_congr_left fun d member => ?_).trans (List.map_id _)
    exact (digitChar_spec (Nat.digits_lt_base (by norm_num) member)).2.1

theorem decimal_isIntPart (n : Nat) : IsIntPart (decimal n) := by
  unfold decimal
  split_ifs with zero
  · exact .inl rfl
  · have nonempty : Nat.digits 10 n ≠ [] := Nat.digits_ne_nil_iff_ne_zero.mpr zero
    have lead := Nat.getLast_digit_ne_zero 10 zero
    have small := Nat.digits_lt_base (by norm_num) (List.getLast_mem nonempty)
    refine .inr ⟨digitChar ((Nat.digits 10 n).getLast nonempty),
      (((Nat.digits 10 n).dropLast).map digitChar).reverse, ?_, (digitChar_spec small).1,
      fun same => lead ((digitChar_spec small).2.2 same), ?_⟩
    · conv => lhs; rw [← List.dropLast_append_getLast nonempty]
      simp
    · simp only [List.mem_reverse, List.mem_map]
      rintro c ⟨d, member, rfl⟩
      exact (digitChar_spec (Nat.digits_lt_base (by norm_num) (List.mem_of_mem_dropLast member))).1

theorem decimal_length_le {n : Nat} (small : n < 10 ^ 6) : (decimal n).length ≤ 6 := by
  unfold decimal
  split_ifs
  · simp
  · have := Nat.le_digits_len_le 10 n (10 ^ 6 - 1) (by omega)
    simp only [List.length_reverse, List.length_map]
    exact this.trans (by norm_num)

theorem digitsValue_zeros_append (k : Nat) (ds : List Char) :
    digitsValue (List.replicate k '0' ++ ds) = digitsValue ds := by
  induction k with
  | zero => rfl
  | succ k ih =>
    unfold digitsValue at ih ⊢
    simp only [List.replicate_succ, List.cons_append, List.reverse_cons, List.map_append, Nat.ofDigits_append,
      List.map_cons, List.map_nil] at ih ⊢
    rw [← ih]
    simp [Nat.ofDigits]

theorem sixDigits_spec {n : Nat} (small : n < 10 ^ 6) :
    (sixDigits n).length = 6 ∧ (∀ c ∈ sixDigits n, c.isDigit) ∧ digitsValue (sixDigits n) = n := by
  have short := decimal_length_le small
  refine ⟨by simp [sixDigits]; omega, fun c member => ?_, by rw [sixDigits, digitsValue_zeros_append, digitsValue_decimal]⟩
  rcases List.mem_append.mp member with zero | digit
  · rw [List.eq_of_mem_replicate zero]; rfl
  · exact decimal_isDigit n c digit

end Digits

theorem formatLf_finite (negative : Bool) (mantissa : Nat) (exponent : Int) :
    JNumber (formatLf (.finite negative mantissa exponent))
      ((if negative then -1 else 1) * (scaledMagnitude mantissa exponent : ℚ) / 10 ^ 6) := by
  simp only [formatLf]
  generalize scaledMagnitude mantissa exponent = k
  obtain ⟨length, digits, value⟩ := sixDigits_spec (Nat.mod_lt k (by norm_num))
  have number := JNumber.mk (show signText negative = [] ∨ signText negative = ['-'] by cases negative <;> simp [signText])
    (decimal_isIntPart (k / 10 ^ 6))
    (JFrac.digits (show sixDigits (k % 10 ^ 6) ≠ [] by rw [← List.length_pos]; omega) digits) JExp.none
  have split : (k : ℚ) = 10 ^ 6 * ((k / 10 ^ 6 : ℕ) : ℚ) + ((k % 10 ^ 6 : ℕ) : ℚ) := by
    exact_mod_cast (Nat.div_add_mod _ _).symm
  have denotes : (if signText negative = [] then 1 else -1) * ((k / 10 ^ 6 : ℕ) + ((k % 10 ^ 6 : ℕ) : ℚ) / 10 ^ 6) *
      (10 : ℚ) ^ (0 : ℤ) = (if negative then -1 else 1) * (k : ℚ) / 10 ^ 6 := by
    rw [split]
    cases negative <;> simp [signText] <;> ring
  rwa [digitsValue_decimal, value, length, List.append_nil, denotes] at number

theorem jChars_plain : ∀ {s : List Char}, (∀ c ∈ s, c ≠ '"' ∧ c ≠ '\\' ∧ 32 ≤ c.toNat) → JChars s s
  | [], _ => .nil
  | c :: s, plain => by
    obtain ⟨quote, backslash, printable⟩ := plain c (List.mem_cons_self c s)
    exact .unescaped quote backslash printable (jChars_plain fun d member => plain d (List.mem_cons_of_mem c member))

theorem jsonText_of_value {s : List Char} {v : JsonValue} (value : JValue s v []) : JsonText s v := by
  simpa using JsonText.mk (show Ws [] by simp [Ws]) value (show Ws [] by simp [Ws])

theorem toCInt_le_of_pos {size : Nat} (pos : 0 < toCInt size) : toCInt size ≤ size := by
  unfold toCInt at pos ⊢
  rw [Int.bmod_def] at pos ⊢
  norm_num at pos ⊢
  split_ifs at pos ⊢ <;> omega

theorem leUtf8Copy_wrote_ok {src t : List Char} {size : Nat}
    (copied : Prod.map id Written.wrote (leUtf8Copy src size) = (.ok, .wrote t)) : t = src := by
  unfold leUtf8Copy at copied
  split_ifs at copied <;> simp only [Prod.map, id, Prod.mk.injEq, Written.wrote.injEq] at copied
  · exact copied.2.symm
  · cases copied.1

theorem dataSampleConvertToJson_ok_text {sample : DataSample} {dataType : DataType} {size : Nat} {text : List Char}
    (ok : dataSampleConvertToJson sample dataType size = (.ok, .wrote text)) : text = jsonRendering sample dataType := by
  cases dataType with
  | trigger | json => exact leUtf8Copy_wrote_ok ok
  | boolean | numeric =>
    simp only [dataSampleConvertToJson, jsonRendering, snprintf, ge_iff_le, Prod.mk.injEq] at ok ⊢
    generalize (if sample.boolean then "true".toList else "false".toList) = rendering at ok ⊢
    generalize formatLf sample.numeric = rendering at ok ⊢
    obtain ⟨fits, written⟩ := ok
    split_ifs at fits written with over empty
    have := @toCInt_le_of_pos size (by omega)
    rw [← Written.wrote.inj written]
    exact List.take_of_length_le (by omega)
  | string =>
    simp only [dataSampleConvertToJson] at ok
    split_ifs at ok with tiny
    · cases ok
    split at ok
    · next copied copy =>
      obtain ⟨rfl, -⟩ := leUtf8Copy_ok copy
      split_ifs at ok
      · cases ok
      · cases ok
        rfl
    · cases ok

/-- A conversion's result stays in a buffer of `size` bytes: it leaves the buffer as it was only
with LE_OVERFLOW, and a text it writes before the NUL is shorter than the buffer and a prefix of
the rendering, the whole rendering when the result is LE_OK. -/
def InBuffer (result : LeResult × Written (List Char)) (rendering : List Char) (size : Nat) : Prop :=
  (result.2 = .untouched → result.1 = .overflow) ∧
    ∀ text, result.2 = .wrote text → text.length < size ∧ List.IsPrefix text rendering ∧ (result.1 = .ok → text = rendering)

theorem leUtf8Copy_inBuffer (src : List Char) {size : Nat} (positive : 1 ≤ size) :
    InBuffer (Prod.map id .wrote (leUtf8Copy src size)) src size := by
  rw [leUtf8Copy_eq]
  refine ⟨nofun, fun text written => ?_⟩
  obtain rfl := Written.wrote.inj written
  refine ⟨by simp only [List.length_take]; omega, List.take_prefix _ _, fun ok => ?_⟩
  split_ifs at ok with fits
  · exact List.take_of_length_le (by omega)
  · cases ok

theorem dataSampleConvertToJson_untouched (sample : DataSample) (dataType : DataType) {size : Nat}
    (positive : 1 ≤ size) : (dataSampleConvertToJson sample dataType size).2 = .untouched ↔ dataType = .string ∧ size < 3 := by
  cases dataType with
  | trigger | json => simp [dataSampleConvertToJson]
  | boolean | numeric =>
    simp only [dataSampleConvertToJson, snprintf, if_neg (show size ≠ 0 by omega)]
    exact iff_of_false nofun (by simp)
  | string =>
    simp only [dataSampleConvertToJson, true_and]
    split_ifs with tiny
    · exact iff_of_true rfl tiny
    · refine iff_of_false ?_ tiny
      split
      · split_ifs <;> exact nofun
      · exact nofun

theorem dataSampleConvertToJson_prefix (sample : DataSample) (dataType : DataType) {size : Nat} (positive : 1 ≤ size)
    {text : List Char} (written : (dataSampleConvertToJson sample dataType size).2 = .wrote text) :
    text.length < size ∧ List.IsPrefix text (jsonRendering sample dataType) := by
  cases dataType with
  | trigger | json => exact ⟨((leUtf8Copy_inBuffer _ positive).2 text written).1, ((leUtf8Copy_inBuffer _ positive).2 text written).2.1⟩
  | boolean | numeric =>
    simp only [dataSampleConvertToJson, jsonRendering, snprintf, if_neg (show size ≠ 0 by omega)] at written
    obtain rfl := Written.wrote.inj written
    exact ⟨by simp only [List.length_take]; omega, List.take_prefix _ _⟩
  | string =>
    simp only [dataSampleConvertToJson, jsonRendering, leUtf8Copy_eq] at written
    have quoted : ∀ k, List.IsPrefix ('"' :: sample.stringPtr.take k) ('"' :: sample.stringPtr ++ ['"']) :=
      fun k => List.cons_prefix_cons.mpr ⟨rfl, (List.take_prefix _ _).trans (List.prefix_append _ _)⟩
    split_ifs at written with tiny copied
    · dsimp only at written
      split_ifs at written with room <;> obtain rfl := Written.wrote.inj written
      · exact ⟨by simp only [List.length_cons, List.length_take]; omega, quoted _⟩
      · rw [List.take_of_length_le (by omega)] at room ⊢
        exact ⟨by simp only [List.length_cons, List.length_append, List.length_nil]; omega, List.prefix_rfl⟩
    · obtain rfl := Written.wrote.inj written
      exact ⟨by simp only [List.length_cons, List.length_take]; omega, quoted _⟩

theorem dataSampleConvertToJson_inBuffer (sample : DataSample) (dataType : DataType) {size : Nat} (positive : 1 ≤ size) :
    InBuffer (dataSampleConvertToJson sample dataType size) (jsonRendering sample dataType) size := by
  refine ⟨fun untouched => ?_, fun text written => ?_⟩
  · obtain ⟨rfl, tiny⟩ := (dataSampleConvertToJson_untouched sample dataType positive).mp untouched
    simp only [dataSampleConvertToJson, if_pos tiny]
  · obtain ⟨short, prefixed⟩ := dataSampleConvertToJson_prefix sample dataType positive written
    exact ⟨short, prefixed, fun ok => dataSampleConvertToJson_ok_text (Prod.ext ok written)⟩

/-- Whatever valueBuffSize is from one byte on, also where the (int) cast goes wrong,
dataSample_ConvertToJson and dataSample_ConvertToString write inside the buffer, never more than
a prefix of the rendering, and never report LE_OK for a cut text; ConvertToJson leaves the buffer
as it was exactly for a STRING sample and fewer than 3 bytes, ConvertToString never. -/
theorem conversions_stay_in_buffer (sample : DataSample) (dataType : DataType) {size : Nat} (positive : 1 ≤ size) :
    InBuffer (dataSampleConvertToJson sample dataType size) (jsonRendering sample dataType) size ∧
      InBuffer (dataSampleConvertToString sample dataType size)
        (if dataType = .string then sample.stringPtr else jsonRendering sample dataType) size ∧
      ((dataSampleConvertToJson sample dataType size).2 = .untouched ↔ dataType = .string ∧ size < 3) ∧
      (dataSampleConvertToString sample dataType size).2 ≠ .untouched := by
  have json := dataSampleConvertToJson_inBuffer sample dataType positive
  have untouched := dataSampleConvertToJson_untouched sample dataType positive
  unfold dataSampleConvertToString
  split_ifs with string
  · exact ⟨json, leUtf8Copy_inBuffer _ positive, untouched, nofun⟩
  · exact ⟨json, json, untouched, fun kept => string (untouched.mp kept).1⟩

theorem conversions_stay_in_buffer_of_two_bytes : 1 ≤ 2 ∧
    InBuffer (dataSampleConvertToJson ⟨false, .finite false 0 0, ['h', 'i']⟩ .string 2)
      (jsonRendering ⟨false, .finite false 0 0, ['h', 'i']⟩ .string) 2 ∧
    InBuffer (dataSampleConvertToString ⟨false, .finite false 0 0, ['h', 'i']⟩ .string 2)
      (if DataType.string = .string then ['h', 'i'] else jsonRendering ⟨false, .finite false 0 0, ['h', 'i']⟩ .string) 2 ∧
    ((dataSampleConvertToJson ⟨false, .finite false 0 0, ['h', 'i']⟩ .string 2).2 = .untouched ↔
      DataType.string = .string ∧ 2 < 3) ∧
    (dataSampleConvertToString ⟨false, .finite false 0 0, ['h', 'i']⟩ .string 2).2 ≠ .untouched :=
  ⟨by decide, conversions_stay_in_buffer ⟨false, .finite false 0 0, ['h', 'i']⟩ .string (by decide)⟩

section Inversion

theorem JsonText.inv {text : List Char} {v : JsonValue} (json : JsonText text v) :
    ∃ w₁ s w₂, text = w₁ ++ s ∧ Ws w₁ ∧ JValue s v w₂ ∧ Ws w₂ := by
  cases json with
  | mk ws₁ value ws₂ => exact ⟨_, _, _, rfl, ws₁, value, ws₂⟩

theorem Ws.eq_nil {w s t : List Char} {c : Char} (ws : Ws w) (split : w ++ s = c :: t)
    (other : ¬(c = ' ' ∨ c = '\t' ∨ c = '\n' ∨ c = '\r')) : w = [] ∧ s = c :: t := by
  cases w with
  | nil => exact ⟨rfl, split⟩
  | cons d w =>
    obtain ⟨rfl, -⟩ := List.cons.inj split
    exact absurd (ws d (List.mem_cons_self d w)) other

theorem JNumber.head {num : List Char} {q : ℚ} (number : JNumber num q) :
    ∃ c t, num = c :: t ∧ (c = '-' ∨ c.isDigit) := by
  cases number with
  | @mk minus int frac exp _ _ sign intPart =>
    rcases sign with rfl | rfl
    · rcases intPart with rfl | ⟨d, rest, rfl, digit, -, -⟩
      · exact ⟨'0', frac ++ exp, by simp, .inr rfl⟩
      · exact ⟨d, rest ++ (frac ++ exp), by simp, .inr digit⟩
    · exact ⟨'-', int ++ (frac ++ exp), by simp, .inl rfl⟩

theorem JValue.head {s rest : List Char} {v : JsonValue} (value : JValue s v rest) :
    ∃ c t, s = c :: t ∧ (c = 'n' ∨ c = 't' ∨ c = 'f' ∨ c = '"' ∨ c = '[' ∨ c = '\x7b' ∨ c = '-' ∨ c.isDigit) := by
  cases value with
  | number number =>
    obtain ⟨c, t, rfl, sign⟩ := number.head
    exact ⟨c, _, rfl, .inr (.inr (.inr (.inr (.inr (.inr sign)))))⟩
  | _ => exact ⟨_, _, rfl, by simp⟩

/-- The closing quotation mark of a string is the first one that is not escaped. -/
theorem JChars.eq_nil_of_quote {s cs r t : List Char} (chars : JChars s cs) (split : s ++ '"' :: r = '"' :: t) :
    s = [] := by
  cases chars with
  | nil => rfl
  | unescaped quote => exact absurd (List.cons.inj split).1 quote
  | escaped => simp at split

theorem JValue.string_inv {t rest : List Char} {v : JsonValue} (value : JValue ('"' :: t) v rest) :
    ∃ s cs, t = s ++ '"' :: rest ∧ JChars s cs := by
  generalize text : '"' :: t = u at value
  cases value with
  | string chars => exact ⟨_, _, (List.cons.inj text).2, chars⟩
  | number number =>
    obtain ⟨c, t', rfl, sign⟩ := number.head
    obtain ⟨rfl, -⟩ := List.cons.inj text
    simp at sign
  | _ => simp at text

theorem not_json_three_quotes (v : JsonValue) : ¬JsonText ['"', '"', '"'] v := by
  intro json
  obtain ⟨w₁, s, w₂, split, ws₁, value, ws₂⟩ := json.inv
  obtain ⟨-, rfl⟩ := ws₁.eq_nil split.symm (by decide)
  obtain ⟨s', cs, split', chars⟩ := value.string_inv
  obtain rfl := chars.eq_nil_of_quote split'.symm
  obtain ⟨-, rfl⟩ := List.cons.inj split'
  simp [Ws] at ws₂

theorem not_json_inf (v : JsonValue) : ¬JsonText ['i', 'n', 'f'] v := by
  intro json
  obtain ⟨w₁, s, w₂, split, ws₁, value, -⟩ := json.inv
  obtain ⟨-, rfl⟩ := ws₁.eq_nil split.symm (by decide)
  obtain ⟨c, t, same, head⟩ := value.head
  obtain ⟨rfl, -⟩ := List.cons.inj same
  simp at head

end Inversion

/-- A STRING payload holding a quotation mark, and a NUMERIC infinity, are reported LE_OK with
text that is not JSON. -/
theorem quote_and_infinity_are_not_json :
    dataSampleConvertToJson ⟨false, .finite false 0 0, ['"']⟩ .string 8 = (.ok, .wrote ['"', '"', '"']) ∧
      (∀ v, ¬JsonText ['"', '"', '"'] v) ∧
      dataSampleConvertToJson ⟨false, .infinity false, []⟩ .numeric 8 = (.ok, .wrote ['i', 'n', 'f']) ∧
      ∀ v, ¬JsonText ['i', 'n', 'f'] v :=
  ⟨rfl, not_json_three_quotes, rfl, not_json_inf⟩

/-- When ConvertToJson reports LE_OK, its text is JSON for a TRIGGER or BOOLEAN sample, a finite
NUMERIC one, a STRING one without quotation marks, backslashes and control characters, and a
JSON one whose payload is JSON. It denotes null, the boolean, the number rounded to six
decimals, the string, or the payload's value. -/
theorem ok_json_text_denotes_sample {sample : DataSample} {dataType : DataType} {size : Nat} {text : List Char}
    (ok : dataSampleConvertToJson sample dataType size = (.ok, .wrote text)) :
    (dataType = .trigger → JsonText text .null) ∧
    (dataType = .boolean → JsonText text (.bool sample.boolean)) ∧
    (∀ negative mantissa exponent, dataType = .numeric → sample.numeric = .finite negative mantissa exponent →
      JsonText text (.number ((if negative then -1 else 1) * (scaledMagnitude mantissa exponent : ℚ) / 10 ^ 6))) ∧
    (dataType = .string → (∀ c ∈ sample.stringPtr, c ≠ '"' ∧ c ≠ '\\' ∧ 32 ≤ c.toNat) →
      JsonText text (.string sample.stringPtr)) ∧
    (∀ v, dataType = .json → JsonText sample.stringPtr v → JsonText text v) := by
  obtain rfl := dataSampleConvertToJson_ok_text ok
  refine ⟨fun trigger => ?_, fun boolean => ?_, fun negative mantissa exponent numeric finite => ?_,
    fun string plain => ?_, fun v json payload => ?_⟩
  · subst trigger
    exact jsonText_of_value (.null [])
  · subst boolean
    obtain ⟨_ | _, numeric, stringPtr⟩ := sample
    · exact jsonText_of_value (.false [])
    · exact jsonText_of_value (.true [])
  · subst numeric
    have value := @JValue.number _ [] _ (formatLf_finite negative mantissa exponent)
    rw [List.append_nil] at value
    simpa only [jsonRendering, finite] using jsonText_of_value value
  · subst string
    exact jsonText_of_value (.string (jChars_plain plain))
  · subst json
    exact payload

theorem ok_json_text_denotes_sample_of_hi :
    dataSampleConvertToJson ⟨false, .finite false 0 0, ['h', 'i']⟩ .string 8 = (.ok, .wrote ['"', 'h', 'i', '"']) ∧
    (DataType.string = .trigger → JsonText ['"', 'h', 'i', '"'] .null) ∧
    (DataType.string = .boolean → JsonText ['"', 'h', 'i', '"'] (.bool false)) ∧
    (∀ negative mantissa exponent, DataType.string = .numeric →
      Double.finite false 0 0 = .finite negative mantissa exponent →
      JsonText ['"', 'h', 'i', '"'] (.number ((if negative then -1 else 1) * (scaledMagnitude mantissa exponent : ℚ) / 10 ^ 6))) ∧
    (DataType.string = .string → (∀ c ∈ ['h', 'i'], c ≠ '"' ∧ c ≠ '\\' ∧ 32 ≤ c.toNat) →
      JsonText ['"', 'h', 'i', '"'] (.string ['h', 'i'])) ∧
    (∀ v, DataType.string = .json → JsonText ['h', 'i'] v → JsonText ['"', 'h', 'i', '"'] v) :=
  ⟨rfl, @ok_json_text_denotes_sample ⟨false, .finite false 0 0, ['h', 'i']⟩ .string 8 ['"', 'h', 'i', '"'] rfl⟩

end DataHub
