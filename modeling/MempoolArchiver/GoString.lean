import Mathlib.Data.List.DropRight
import Mathlib.Data.List.Basic
import Mathlib.Data.Nat.Digits

/-!
# Go strings as bytes

A Go `string` is a sequence of bytes, and every function the loaders apply to a CSV line
works on bytes: `len`, `bufio.Reader.ReadString('\n')`, `strings.Trim`, `strings.Split`,
`strings.Join`, the ASCII path of `strings.ToLower`, and `strconv.Atoi`. The writers render
integers with `fmt` (`%d`, `fmt.Sprint`) and bytes with `hexutil.Encode`. A Go `int64` is
an integer of the signed 64-bit range, kept in the type.
-/

namespace MempoolArchiver

abbrev Bytes := List UInt8

def lit (s : String) : Bytes := s.toList.map Char.toUInt8

/-! ## `int64` -/

structure Int64 where
  val : Int
  ge : -2 ^ 63 ≤ val
  lt : val < 2 ^ 63
deriving DecidableEq

namespace Int64

instance : LT Int64 := ⟨fun a b => a.val < b.val⟩
instance : LE Int64 := ⟨fun a b => a.val ≤ b.val⟩
instance (a b : Int64) : Decidable (a < b) := inferInstanceAs (Decidable (a.val < b.val))
instance (a b : Int64) : Decidable (a ≤ b) := inferInstanceAs (Decidable (a.val ≤ b.val))

@[simp] theorem lt_def {a b : Int64} : a < b ↔ a.val < b.val := Iff.rfl
@[simp] theorem le_def {a b : Int64} : a ≤ b ↔ a.val ≤ b.val := Iff.rfl

theorem ext_val {a b : Int64} (h : a.val = b.val) : a = b := by
  cases a; cases b; cases h; rfl

/-- The `int64` holding `v`, when `v` is in range. -/
def ofInt? (v : Int) : Option Int64 :=
  if h : -2 ^ 63 ≤ v ∧ v < 2 ^ 63 then some ⟨v, h.1, h.2⟩ else none

theorem ofInt?_val (a : Int64) : ofInt? a.val = some a := by
  rw [ofInt?, dif_pos ⟨a.ge, a.lt⟩]

def ofNat (n : Nat) (h : n < 2 ^ 63) : Int64 := ⟨n, by omega, by omega⟩

def zero : Int64 := ⟨0, by decide, by decide⟩

end Int64

/-! ## Decimal and hexadecimal renderings -/

def isDigit (b : UInt8) : Bool := 48 ≤ b.toNat && b.toNat ≤ 57

def digitByte (d : Nat) : UInt8 := (48 + d).toUInt8

/-- `fmt.Sprint` of an unsigned integer (also `big.Int.String` of a non-negative one): its
decimal digits, most significant first, and `"0"` for zero. -/
def decimal (n : Nat) : Bytes :=
  if n = 0 then [48] else ((Nat.digits 10 n).reverse.map digitByte)

/-- `fmt.Sprint` and `%d` of a signed integer. -/
def fmtInt (i : Int) : Bytes :=
  if i < 0 then 45 :: decimal i.natAbs else decimal i.toNat

def hexDigit (d : Nat) : UInt8 := if d < 10 then (48 + d).toUInt8 else (87 + d).toUInt8

/-- `hexutil.Encode`: `0x` followed by two lowercase hex digits a byte. -/
def hexEncode (bs : Bytes) : Bytes :=
  lit "0x" ++ bs.flatMap fun b => [hexDigit (b.toNat / 16), hexDigit (b.toNat % 16)]

/-! ## Reading, trimming, splitting -/

/-- The segments successive `ReadString('\n')` calls return on a file's contents, up to the
empty read at its end: each ends with its newline, except a last one that runs to the end
of the file. -/
def readLines : Bytes → List Bytes
  | [] => []
  | b :: bs =>
    if b = 10 then [10] :: readLines bs
    else match readLines bs with
      | [] => [[b]]
      | l :: ls => (b :: l) :: ls

/-- `strings.Trim(l, "\n")`. -/
def trimNewlines (l : Bytes) : Bytes := (l.dropWhile (· == 10)).rdropWhile (· == 10)

/-- `strings.Split(s, ",")`. -/
def splitComma (s : Bytes) : List Bytes := s.splitOn 44

/-- `strings.Join(fields, ",")`. -/
def joinComma (fields : List Bytes) : Bytes := [44].intercalate fields

/-! ## `strings.ToLower` and `strconv.Atoi` -/

def asciiLower (b : UInt8) : UInt8 := if 65 ≤ b.toNat ∧ b.toNat ≤ 90 then b + 32 else b

/-- `strings.ToLower`: an ASCII string is lowered byte by byte; any other string goes
through `strings.Map(unicode.ToLower, s)`, which is `unicodeLower`. -/
def toLower (unicodeLower : Bytes → Bytes) (s : Bytes) : Bytes :=
  if s.all (·.toNat < 128) then s.map asciiLower else unicodeLower s

def digitsValue (ds : Bytes) : Nat := ds.foldl (fun n d => n * 10 + (d.toNat - 48)) 0

/-- `strconv.Atoi` on a 64-bit platform: an optional sign and a nonempty run of decimal
digits whose value fits `int`. Its fast path for strings under 19 bytes and its
`ParseInt` fallback accept the same strings with the same values. -/
def atoi : Bytes → Option Int64
  | [] => none
  | s@(b :: rest) =>
    let ds := if b = 45 ∨ b = 43 then rest else s
    if ds ≠ [] ∧ ds.all isDigit then
      Int64.ofInt? (if b = 45 then -(digitsValue ds : Int) else digitsValue ds)
    else none

end MempoolArchiver

namespace MempoolArchiver

/-! ## Reading back what the writers render -/

theorem readLines_line (l rest : Bytes) (hl : ∀ b ∈ l, b ≠ 10) :
    readLines (l ++ 10 :: rest) = (l ++ [10]) :: readLines rest := by
  induction l with
  | nil => simp [readLines]
  | cons b l ih =>
    simp only [List.mem_cons, forall_eq_or_imp] at hl
    simp [readLines, hl.1, ih hl.2]

theorem trimNewlines_line (l : Bytes) (hl : ∀ b ∈ l, b ≠ 10) :
    trimNewlines (l ++ [10]) = l := by
  cases l with
  | nil => rfl
  | cons b l =>
    have hb : (b == 10) = false := by simpa using hl b (by simp)
    have hr : (b :: l).rdropWhile (· == 10) = b :: l := by
      rw [List.rdropWhile_eq_self_iff]
      intro hne
      simpa using hl _ (List.getLast_mem hne)
    rw [trimNewlines, List.cons_append, List.dropWhile_cons_of_neg (by simp [hb]),
      ← List.cons_append, List.rdropWhile_concat_pos _ _ (10 : UInt8) rfl, hr]

@[simp] theorem joinComma_singleton (f : Bytes) : joinComma [f] = f := by
  simp [joinComma, List.intercalate]

theorem joinComma_cons_cons (f g : Bytes) (fs : List Bytes) :
    joinComma (f :: g :: fs) = f ++ 44 :: joinComma (g :: fs) := by
  simp [joinComma, List.intercalate, List.intersperse]

theorem mem_joinComma {b : UInt8} {fs : List Bytes} (h : b ∈ joinComma fs) :
    b = 44 ∨ ∃ f ∈ fs, b ∈ f := by
  match fs, h with
  | [f], h => exact .inr ⟨f, by simp, by simpa using h⟩
  | f :: g :: fs, h =>
    rw [joinComma_cons_cons] at h
    rcases List.mem_append.mp h with h | h
    · exact .inr ⟨f, by simp, h⟩
    · rcases List.mem_cons.mp h with h | h
      · exact .inl h
      · rcases mem_joinComma h with h | ⟨f', hf', h⟩
        · exact .inl h
        · exact .inr ⟨f', List.mem_cons_of_mem _ hf', h⟩

theorem splitComma_joinComma (fs : List Bytes) (hfs : ∀ f ∈ fs, 44 ∉ f) (hne : fs ≠ []) :
    splitComma (joinComma fs) = fs :=
  List.splitOn_intercalate fs 44 hfs hne

theorem toLower_of_lower (f : Bytes → Bytes) (s : Bytes)
    (hs : ∀ b ∈ s, b.toNat < 128 ∧ ¬(65 ≤ b.toNat ∧ b.toNat ≤ 90)) : toLower f s = s := by
  have hmap : s.map asciiLower = s := by
    conv_rhs => rw [← List.map_id s]
    exact List.map_congr_left fun b hb => by simp [asciiLower, (hs b hb).2]
  have hall : s.all (·.toNat < 128) = true :=
    List.all_eq_true.mpr fun b hb => by simpa using (hs b hb).1
  simp only [toLower, hall, if_true, hmap]

theorem digitByte_toNat {d : Nat} (hd : d < 10) : (digitByte d).toNat = 48 + d :=
  UInt8.toNat_ofNat_of_lt (by simp [UInt8.size]; omega)

theorem isDigit_digitByte {d : Nat} (hd : d < 10) : isDigit (digitByte d) := by
  simp only [isDigit, digitByte_toNat hd, Bool.and_eq_true, decide_eq_true_eq]
  omega

theorem decimal_ne_nil (n : Nat) : decimal n ≠ [] := by
  unfold decimal
  split_ifs with h
  · simp
  · simpa using Nat.digits_ne_nil_iff_ne_zero.mpr h

theorem decimal_digits (n : Nat) : ∀ b ∈ decimal n, isDigit b := by
  unfold decimal
  split_ifs
  · intro b hb
    rw [List.mem_singleton.mp hb]
    decide
  · simp only [List.mem_map, List.mem_reverse]
    rintro _ ⟨d, hd, rfl⟩
    exact isDigit_digitByte (Nat.digits_lt_base (by norm_num) hd)

theorem foldl_digitByte (L : List Nat) (hL : ∀ d ∈ L, d < 10) (acc : Nat) :
    (L.map digitByte).foldl (fun n d => n * 10 + (d.toNat - 48)) acc =
      L.foldl (fun n d => n * 10 + d) acc := by
  induction L generalizing acc with
  | nil => rfl
  | cons d L ih =>
    simp only [List.mem_cons, forall_eq_or_imp] at hL
    simp only [List.map_cons, List.foldl_cons, digitByte_toNat hL.1, Nat.add_sub_cancel_left]
    exact ih hL.2 _

theorem digitsValue_decimal (n : Nat) : digitsValue (decimal n) = n := by
  unfold decimal digitsValue
  split_ifs with h
  · subst h; rfl
  · rw [foldl_digitByte _ (fun d hd => Nat.digits_lt_base (by norm_num) (List.mem_reverse.mp hd)),
      List.foldl_reverse]
    conv_rhs => rw [← Nat.ofDigits_digits 10 n, Nat.ofDigits_eq_foldr]
    congr 1
    funext d m
    simp only [Nat.cast_id]
    ring

theorem atoi_of_digits (ds : Bytes) (hne : ds ≠ []) (hd : ∀ b ∈ ds, isDigit b) :
    atoi ds = Int64.ofInt? (digitsValue ds) := by
  obtain ⟨b, ds, rfl⟩ := List.exists_cons_of_ne_nil hne
  have hb := hd b (by simp)
  have h45 : b ≠ 45 := by rintro rfl; exact absurd hb (by decide)
  have h43 : b ≠ 43 := by rintro rfl; exact absurd hb (by decide)
  simp [atoi, h45, h43, List.all_eq_true.mpr hd]

theorem atoi_neg_digits (ds : Bytes) (hne : ds ≠ []) (hd : ∀ b ∈ ds, isDigit b) :
    atoi (45 :: ds) = Int64.ofInt? (-(digitsValue ds : Int)) := by
  simp [atoi, hne, List.all_eq_true.mpr hd]

theorem atoi_fmtInt (a : Int64) : atoi (fmtInt a.val) = some a := by
  unfold fmtInt
  split_ifs with h
  · rw [atoi_neg_digits _ (decimal_ne_nil _) (decimal_digits _), digitsValue_decimal,
      Int.ofNat_natAbs_of_nonpos h.le, neg_neg, Int64.ofInt?_val]
  · rw [atoi_of_digits _ (decimal_ne_nil _) (decimal_digits _), digitsValue_decimal,
      Int.toNat_of_nonneg (by omega), Int64.ofInt?_val]

end MempoolArchiver
