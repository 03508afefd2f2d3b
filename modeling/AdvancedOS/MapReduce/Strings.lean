import Mathlib.Data.List.TakeWhile
import Mathlib.Data.Nat.Digits.Lemmas

/-!
# Strings of the MapReduce framework

A `std::string` is a list of bytes. This module has the library functions that the framework
calls on strings, and the names of the intermediate files: a worker writes
`intermediate/<i>_<port>.txt` for every partition `i`, and the master reads `<i>` back from the
name.

* `splitAtPos_of_pos`, `splitAtPos_of_neg`, `splitAtPos_of_overflow`, `splitAtPos_of_lt`: what is read from
  a line that is split at an `int`.
* `stoi_decimal`, `stoi_decimalInt`: `std::stoi` reads back what `std::to_string` writes.
* `fileIdx_intermediateFile`: the master recovers the partition of an intermediate file.
-/

namespace AdvancedOS.MapReduce

/-- `std::string`. -/
abbrev Str := List UInt8

instance : LawfulBEq Str := inferInstance

/-- A string literal. -/
def str (s : String) : Str := s.toList.map fun c => UInt8.ofNat c.toNat

/-! ## Library functions -/

/-- `s.find_first_of(c)`; `none` is `npos`. -/
def findFirstOf (s : Str) (c : UInt8) : Option Nat := s.findIdx? (· == c)

/-- `s.substr(pos, count)`, where no `count` is `npos`; `none` is the `std::out_of_range` of a
position past the end. -/
def substr (s : Str) (pos : Nat) (count : Option Nat) : Option Str :=
  if pos ≤ s.length then
    some (match count with
      | some n => (s.drop pos).take n
      | none => s.drop pos)
  else none

/-- `std::to_string` of a non-negative number. -/
def decimal (n : Nat) : Str :=
  if n = 0 then [48] else (Nat.digits 10 n).reverse.map fun d => UInt8.ofNat (48 + d)

/-- `INT_MAX`. -/
def intMax : Nat := 2147483647

theorem intMax_pos : 0 < intMax := by decide

/-- The conversion to `int`. -/
def toInt32 (x : Int) : Int := (x + 2147483648) % 4294967296 - 2147483648

/-- The conversion of an `int` to `size_t`. -/
def toSizeT (x : Int) : Nat := (x % 18446744073709551616).toNat

/-- `std::string::npos`. -/
def npos : Nat := 18446744073709551615

/-- `int pos = s.find_first_of(c)`: the position is narrowed, and `npos` is `-1`. -/
def intPos (s : Str) (c : UInt8) : Int :=
  toInt32 (match findFirstOf s c with | some p => p | none => npos)

/-- `s.substr(0, pos)` and `s.substr(pos + skip)` for this `pos`; `none` is an exception, or the
overflow of `pos + skip`. -/
def splitAtPos (s : Str) (c : UInt8) (skip : Nat) : Option (Str × Str) :=
  let pos := intPos s c
  (substr s 0 (some (toSizeT pos))).bind fun key =>
    if pos + skip > intMax then none
    else (substr s (toSizeT (pos + skip)) none).map fun value => (key, value)

def isSpace (c : UInt8) : Bool := c == 32 || (9 ≤ c && c ≤ 13)

def isDigit (c : UInt8) : Bool := 48 ≤ c && c ≤ 57

/-- The number that a string of digits writes. -/
def digitsValue (s : Str) : Nat := s.foldl (fun acc c => acc * 10 + (c.toNat - 48)) 0

/-- The sign of a number and what follows it. -/
def splitSign : Str → Int × Str
  | [] => (1, [])
  | c :: s => if c = 45 then (-1, s) else if c = 43 then (1, s) else (1, c :: s)

/-- `std::stoi`: white space, a sign, digits, and anything after them. `none` is an exception:
no digits, or a value that is no `int`. -/
def stoi (s : Str) : Option Int :=
  let (sign, rest) := splitSign (s.dropWhile isSpace)
  let digits := rest.takeWhile isDigit
  let value := sign * digitsValue digits
  if digits ≠ [] ∧ -(intMax : Int) - 1 ≤ value ∧ value ≤ intMax then some value else none

theorem toInt32_of_le {x : Int} (h0 : 0 ≤ x) (h : x ≤ intMax) : toInt32 x = x := by
  have hmax : (intMax : Int) = 2147483647 := rfl
  unfold toInt32
  omega

theorem toInt32_of_gt {x : Int} (h : x > intMax) : toInt32 x ≤ x - 4294967296 := by
  have hmax : (intMax : Int) = 2147483647 := rfl
  unfold toInt32
  omega

theorem toInt32_le (n : Nat) : toInt32 n ≤ n := by
  unfold toInt32
  omega

/-- A count that is the length of a string was not negative. -/
theorem eq_of_toSizeT {x : Int} {n : Nat} (hx : -2147483648 ≤ x ∧ x ≤ intMax) (hn : n < 9223372036854775808)
    (h : toSizeT x = n) : x = n := by
  have hmax : intMax = 2147483647 := rfl
  unfold toSizeT at h
  omega

theorem findFirstOf_eq_none {s : Str} {c : UInt8} (h : c ∉ s) : findFirstOf s c = none := by
  rw [findFirstOf, List.findIdx?_eq_none_iff]
  intro x hx
  simp only [beq_eq_false_iff_ne, ne_eq]
  rintro rfl
  exact h hx

theorem findFirstOf_append {s t : Str} {c : UInt8} (h : c ∉ s) :
    findFirstOf (s ++ c :: t) c = some s.length := by
  have hnone : s.findIdx? (· == c) = none := findFirstOf_eq_none h
  rw [findFirstOf, List.findIdx?_append, hnone]
  simp [List.findIdx?_cons]

/-! ## Splitting at a position that is an `int` -/

theorem intPos_of_notMem {s : Str} {c : UInt8} (h : c ∉ s) : intPos s c = -1 := by
  rw [intPos, findFirstOf_eq_none h]
  decide

theorem intPos_append {a t : Str} {c : UInt8} (h : c ∉ a) : intPos (a ++ c :: t) c = toInt32 a.length := by
  rw [intPos, findFirstOf_append h]

theorem intPos_range (s : Str) (c : UInt8) : -2147483648 ≤ intPos s c ∧ intPos s c ≤ intMax := by
  have hmax : intMax = 2147483647 := rfl
  unfold intPos toInt32
  omega

theorem toSizeT_of_nonneg {x : Int} (h0 : 0 ≤ x) (h : x ≤ intMax) : toSizeT x = x.toNat := by
  have hmax : intMax = 2147483647 := rfl
  unfold toSizeT
  omega

section

variable {s : Str} {c : UInt8} {skip : Nat}

theorem splitAtPos_of_pos {q : Nat} (h : intPos s c = q) (hmax : q + skip ≤ intMax)
    (hq : q + skip ≤ s.length) : splitAtPos s c skip = some (s.take q, s.drop (q + skip)) := by
  have hcount : toSizeT q = q := toSizeT_of_nonneg (by omega) (by omega)
  have hnext : toSizeT ((q : Int) + skip) = q + skip := by
    rw [toSizeT_of_nonneg (by omega) (by omega)]
    omega
  have hno : ¬ (q : Int) + skip > intMax := by omega
  simp only [splitAtPos, h, hcount, hnext, substr, Nat.zero_le, if_true, List.drop_zero, Option.bind_some,
    if_neg hno, if_pos hq, Option.map_some]

/-- The count for the key is longer than every string. -/
theorem splitAtPos_of_neg {q : Nat} (h : intPos s c < 0) (hq : intPos s c + skip = q) (hmax : q ≤ intMax)
    (hlength : q ≤ s.length) (hsize : s.length < 9223372036854775808) :
    splitAtPos s c skip = some (s, s.drop q) := by
  have hrange := intPos_range s c
  have hcount : s.length ≤ toSizeT (intPos s c) := by
    unfold toSizeT
    omega
  have hnext : toSizeT (q : Int) = q := toSizeT_of_nonneg (by omega) (by omega)
  have hno : ¬ (q : Int) > intMax := by omega
  simp only [splitAtPos, hq, hnext, substr, Nat.zero_le, if_true, List.drop_zero, Option.bind_some,
    if_neg hno, if_pos hlength, Option.map_some, List.take_of_length_le hcount]

/-- What is read as the key, if anything is. -/
theorem splitAtPos_eq_some {key value : Str} (h : splitAtPos s c skip = some (key, value)) :
    key = s.take (toSizeT (intPos s c)) ∧ intPos s c + skip ≤ intMax := by
  simp only [splitAtPos, substr, Nat.zero_le, if_true, List.drop_zero, Option.bind_some] at h
  split at h
  · cases h
  · next hfits =>
    obtain ⟨_, _, heq⟩ := Option.map_eq_some_iff.mp h
    exact ⟨(congrArg Prod.fst heq).symm, by omega⟩

theorem splitAtPos_of_overflow (h : intPos s c + skip > intMax) : splitAtPos s c skip = none := by
  simp [splitAtPos, h]

/-- The value would start beyond the end of every string. -/
theorem splitAtPos_of_lt (h : intPos s c + skip < 0) (hsize : s.length < 9223372036854775808) :
    splitAtPos s c skip = none := by
  have hrange := intPos_range s c
  have hnext : ¬ toSizeT (intPos s c + skip) ≤ s.length := by
    unfold toSizeT
    omega
  have hno : ¬ intPos s c + skip > intMax := by omega
  simp only [splitAtPos, substr, if_neg hnext, if_neg hno, Option.map_none, Option.bind_fun_none]

end

/-! ## `std::to_string` and `std::stoi` -/

theorem isDigit_ofNat {d : Nat} (h : d < 10) : isDigit (UInt8.ofNat (48 + d)) = true := by
  interval_cases d <;> decide

theorem toNat_ofNat_digit {d : Nat} (h : d < 10) : (UInt8.ofNat (48 + d)).toNat - 48 = d := by
  interval_cases d <;> decide

theorem isDigit_of_mem_decimal {n : Nat} {c : UInt8} (h : c ∈ decimal n) : isDigit c = true := by
  unfold decimal at h
  split at h
  · obtain rfl := List.mem_singleton.mp h
    decide
  · obtain ⟨d, hd, rfl⟩ := List.mem_map.mp h
    exact isDigit_ofNat (Nat.digits_lt_base (by decide) (List.mem_reverse.mp hd))

theorem decimal_ne_nil (n : Nat) : decimal n ≠ [] := by
  unfold decimal
  split
  · exact List.cons_ne_nil _ _
  · next h => simpa [Nat.digits_ne_nil_iff_ne_zero] using h

theorem digitsValue_decimal (n : Nat) : digitsValue (decimal n) = n := by
  unfold decimal
  split
  · next h => rw [h]; decide
  · have hdigit : ∀ d ∈ Nat.digits 10 n, ∀ acc : Nat,
        acc * 10 + ((UInt8.ofNat (48 + d)).toNat - 48) = d + 10 * acc := by
      intro d hd acc
      rw [toNat_ofNat_digit (Nat.digits_lt_base (by decide) hd)]
      omega
    have hfold : ∀ l : List Nat, (∀ d ∈ l, ∀ acc : Nat,
        acc * 10 + ((UInt8.ofNat (48 + d)).toNat - 48) = d + 10 * acc) →
        l.foldr (fun d acc => acc * 10 + ((UInt8.ofNat (48 + d)).toNat - 48)) 0 = Nat.ofDigits 10 l := by
      intro l
      induction l with
      | nil => exact fun _ => rfl
      | cons d l ih =>
        intro hl
        rw [List.foldr_cons, ih fun x hx => hl x (List.mem_cons_of_mem d hx),
          hl d List.mem_cons_self, Nat.ofDigits_cons]
    rw [digitsValue, List.foldl_map, List.foldl_reverse, hfold _ hdigit, Nat.ofDigits_digits]

theorem splitSign_decimal (n : Nat) (rest : Str) : splitSign (decimal n ++ rest) = (1, decimal n ++ rest) := by
  obtain ⟨c, s, hc⟩ := List.exists_cons_of_ne_nil (decimal_ne_nil n)
  have hdigit : isDigit c = true := isDigit_of_mem_decimal (n := n) (hc ▸ List.mem_cons_self)
  have hminus : c ≠ 45 := by rintro rfl; exact absurd hdigit (by decide)
  have hplus : c ≠ 43 := by rintro rfl; exact absurd hdigit (by decide)
  rw [hc, List.cons_append, splitSign, if_neg hminus, if_neg hplus]

theorem isSpace_of_isDigit {c : UInt8} (h : isDigit c = true) : isSpace c = false := by
  simp only [isDigit, Bool.and_eq_true, decide_eq_true_eq, UInt8.le_iff_toNat_le] at h
  simp only [isSpace, Bool.or_eq_false_iff, beq_eq_false_iff_ne, ne_eq, Bool.and_eq_false_imp,
    decide_eq_true_eq, decide_eq_false_iff_not, UInt8.le_iff_toNat_le]
  refine ⟨?_, fun _ => ?_⟩
  · rintro rfl
    exact absurd h.1 (by decide)
  · have h13 : (13 : UInt8).toNat = 13 := rfl
    have h48 : (48 : UInt8).toNat = 48 := rfl
    omega

theorem dropWhile_isSpace_decimal (n : Nat) (rest : Str) :
    (decimal n ++ rest).dropWhile isSpace = decimal n ++ rest := by
  obtain ⟨c, s, hc⟩ := List.exists_cons_of_ne_nil (decimal_ne_nil n)
  have hspace : isSpace c = false := isSpace_of_isDigit (isDigit_of_mem_decimal (n := n) (hc ▸ List.mem_cons_self))
  rw [hc, List.cons_append, List.dropWhile_cons_of_neg (by simp [hspace])]

/-- `std::stoi` reads back what `std::to_string` wrote, whatever non-digit follows. -/
theorem stoi_decimal {n : Nat} (hn : n ≤ intMax) (rest : Str)
    (hrest : ∀ c ∈ rest.head?, isDigit c = false) : stoi (decimal n ++ rest) = some (n : Int) := by
  have htake : (decimal n ++ rest).takeWhile isDigit = decimal n := by
    rw [List.takeWhile_append_of_pos fun c hc => isDigit_of_mem_decimal hc]
    cases rest with
    | nil => simp
    | cons c rest => simp [hrest c rfl]
  simp only [stoi, dropWhile_isSpace_decimal, splitSign_decimal, htake, digitsValue_decimal, one_mul]
  rw [if_pos ⟨decimal_ne_nil n, by omega, by exact_mod_cast hn⟩]

/-- `std::to_string` of an `int`. -/
def decimalInt (i : Int) : Str := if i < 0 then 45 :: decimal i.natAbs else decimal i.natAbs

/-- `std::stoi` reads every `int` back. -/
theorem stoi_decimalInt {n : Int} (hmin : -(intMax : Int) - 1 ≤ n) (hmax : n ≤ intMax) :
    stoi (decimalInt n) = some n := by
  have htake : (decimal n.natAbs).takeWhile isDigit = decimal n.natAbs :=
    List.takeWhile_eq_self_iff.mpr fun c hc => isDigit_of_mem_decimal hc
  unfold decimalInt
  split
  · next hneg =>
    have hspace : (45 :: decimal n.natAbs).dropWhile isSpace = 45 :: decimal n.natAbs :=
      List.dropWhile_cons_of_neg (by decide)
    have hvalue : (-1 : Int) * (n.natAbs : Nat) = n := by omega
    simp only [stoi, hspace, splitSign, if_pos, htake, digitsValue_decimal, hvalue]
    rw [if_pos ⟨decimal_ne_nil _, hmin, hmax⟩]
  · next hpos =>
    have hread := stoi_decimal (n := n.natAbs) (by omega) [] (by simp)
    rw [List.append_nil] at hread
    rw [hread]
    exact congrArg some (by omega)

/-! ## Intermediate files -/

/-- The port of an address, `ip_addr_port_.substr(ip_addr_port_.find_first_of(":") + 1)`. Without
a colon `npos + 1` is 0 and it is the whole address. -/
def portOf (ip : Str) : Str :=
  match findFirstOf ip 58 with
  | some i => ip.drop (i + 1)
  | none => ip

/-- `"intermediate/" + std::to_string(i) + "_" + worker_ip_addr_ + ".txt"`. -/
def intermediateFile (i : Nat) (port : Str) : Str :=
  str "intermediate/" ++ decimal i ++ str "_" ++ port ++ str ".txt"

/-- The files a map job reports: one for every partition. -/
def mapResultFiles (nPartitions : Nat) (ip : Str) : List Str :=
  (List.range nPartitions).map fun i => intermediateFile i (portOf ip)

/-- The partition that the master reads off a file name in `run`: the number between the first
`/` and the first `_`. -/
def fileIdx (f : Str) : Option Int :=
  let start : Nat := match findFirstOf f 47 with | some i => i + 1 | none => 0
  let stop : Int := match findFirstOf f 95 with | some i => i | none => -1
  -- a negative count wraps to a huge `size_t`, which takes the rest of the string
  (substr f start (if stop < start then none else some (stop - start).toNat)).bind stoi

theorem fileIdx_intermediateFile {i : Nat} (hi : i ≤ intMax) (port : Str) :
    fileIdx (intermediateFile i port) = some (i : Int) := by
  have hslash : findFirstOf (intermediateFile i port) 47 = some 12 := by
    have hsplit : intermediateFile i port =
        str "intermediate" ++ 47 :: (decimal i ++ str "_" ++ port ++ str ".txt") := by
      simp [intermediateFile, str]
    rw [hsplit, findFirstOf_append (by decide)]
    rfl
  have hunderscore : findFirstOf (intermediateFile i port) 95 = some (13 + (decimal i).length) := by
    have hsplit : intermediateFile i port =
        (str "intermediate/" ++ decimal i) ++ 95 :: (port ++ str ".txt") := by
      simp [intermediateFile, str]
    have hnot : (95 : UInt8) ∉ str "intermediate/" ++ decimal i := by
      rw [List.mem_append, not_or]
      exact ⟨by decide, fun hmem => absurd (isDigit_of_mem_decimal hmem) (by decide)⟩
    rw [hsplit, findFirstOf_append hnot, List.length_append]
    rfl
  have h13 : (str "intermediate/").length = 13 := rfl
  have hlength : 13 ≤ (intermediateFile i port).length := by
    simp only [intermediateFile, List.length_append]
    omega
  have hsub : substr (intermediateFile i port) 13 (some (decimal i).length) = some (decimal i) := by
    have hsplit : intermediateFile i port =
        str "intermediate/" ++ (decimal i ++ (str "_" ++ port ++ str ".txt")) := by
      simp [intermediateFile, str]
    rw [substr, if_pos hlength]
    simp only [hsplit]
    rw [List.drop_left' h13, List.take_left' rfl]
  have hcount : ((13 + (decimal i).length : Nat) : Int) - ((12 + 1 : Nat) : Int) = (decimal i).length := by
    omega
  simp only [fileIdx, hslash, hunderscore]
  rw [if_neg (by omega), hcount, Int.toNat_natCast, hsub, Option.bind_some]
  simpa using stoi_decimal hi [] (by simp)

/-- The digits end at the underscore. -/
theorem intermediateFile_cancel {i j : Nat} {port port' : Str}
    (h : intermediateFile i port = intermediateFile j port') : i = j ∧ port = port' := by
  have hsplit : ∀ (n : Nat) (port : Str),
      intermediateFile n port = str "intermediate/" ++ (decimal n ++ 95 :: (port ++ str ".txt")) := by
    intro n port
    simp [intermediateFile, str]
  have hdigits : ∀ (n : Nat) (rest : Str), (decimal n ++ 95 :: rest).takeWhile isDigit = decimal n := by
    intro n rest
    rw [List.takeWhile_append_of_pos fun c hc => isDigit_of_mem_decimal hc,
      List.takeWhile_cons_of_neg (by decide), List.append_nil]
  rw [hsplit, hsplit, List.append_cancel_left_eq] at h
  have hnumber := congrArg (List.takeWhile isDigit) h
  rw [hdigits, hdigits] at hnumber
  rw [hnumber, List.append_cancel_left_eq] at h
  have hvalue := congrArg digitsValue hnumber
  rw [digitsValue_decimal, digitsValue_decimal] at hvalue
  exact ⟨hvalue, List.append_cancel_right (List.tail_eq_of_cons_eq h)⟩

/-- The name tells the partition and the port. -/
theorem intermediateFile_inj {i j : Nat} (hi : i ≤ intMax) (hj : j ≤ intMax) {port port' : Str} :
    intermediateFile i port = intermediateFile j port' ↔ i = j ∧ port = port' := by
  constructor
  · intro h
    have hidx := congrArg fileIdx h
    rw [fileIdx_intermediateFile hi, fileIdx_intermediateFile hj] at hidx
    obtain rfl : i = j := Int.ofNat_inj.mp (Option.some.inj hidx)
    simp only [intermediateFile, List.append_assoc, List.append_cancel_left_eq, List.append_cancel_right_eq] at h
    exact ⟨rfl, h⟩
  · rintro ⟨rfl, rfl⟩
    rfl

/-- A file that is named after a number is no intermediate file: it does not end with `.txt`. -/
theorem ne_intermediateFile {dir port : Str} {p : Int} {i : Nat} :
    dir ++ decimalInt p ≠ intermediateFile i port := by
  intro h
  have hlast := congrArg List.getLast? h
  have hdecimal : ∃ c, (decimal p.natAbs).getLast? = some c ∧ isDigit c = true := by
    refine ⟨(decimal p.natAbs).getLast (decimal_ne_nil _), List.getLast?_eq_some_getLast _, ?_⟩
    exact isDigit_of_mem_decimal (List.getLast_mem _)
  obtain ⟨c, hc, hdigit⟩ := hdecimal
  have hleft : (dir ++ decimalInt p).getLast? = some c := by
    unfold decimalInt
    split
    · rw [List.getLast?_append_of_ne_nil _ (List.cons_ne_nil _ _), List.getLast?_cons, hc]
      rfl
    · rw [List.getLast?_append_of_ne_nil _ (decimal_ne_nil _), hc]
  have hright : (intermediateFile i port).getLast? = some 116 := by
    rw [intermediateFile, List.getLast?_append_of_ne_nil _ (by decide)]
    rfl
  rw [hleft, hright] at hlast
  obtain rfl := Option.some.inj hlast
  exact absurd hdigit (by decide)

end AdvancedOS.MapReduce
