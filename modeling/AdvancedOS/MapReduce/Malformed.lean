import AdvancedOS.Lib.Grouping
import AdvancedOS.MapReduce.Spec

/-!
# Malformed configurations

`read_and_validate_spec` on any text. Nothing in `read_mr_spec_from_config_file` catches what `substr` and
`stoi` throw, and `stoi` stops at the first byte that is no digit, so a text can end the process or give
a number that it does not have.

* `meant`: what a configuration means, told from the last values of its keys.
* `readLines_eq`: the reader reads that, or throws at a line that is not `ReadableLine`.
* `rejects_malformed_iff`: when a text is read or rejected as it should be.
-/

namespace AdvancedOS.MapReduce

open Lines

/-- `read_and_validate_spec`; `none` is an exception. -/
def readAndValidateSpec (fileExists isDirectory : Str → Bool) (file : Option Str) : Option Bool :=
  (readMrSpecFromConfigFile file {}).map fun (ok, spec) => ok && validateMrSpec fileExists isDirectory spec

/-! ## What a text means -/

/-- The keys whose values are numbers. -/
def Key.numbers : List Key := [.nWorkers, .nOutputFiles, .mapKilobytes]

/-- The position of the first `=` as an `int` is `-1`, or it is not negative and has a successor. -/
def Cuttable (line : Str) : Prop :=
  ∀ p, findFirstOf line 61 = some p → p % 4294967296 = 4294967295 ∨ p % 4294967296 < intMax

/-- The key and the value of such a line; without a `=` the whole line is both. -/
def cut (line : Str) : Str × Str :=
  match findFirstOf line 61 with
  | none => (line, line)
  | some p =>
    if p % 4294967296 = 4294967295 then (line, line)
    else (line.take (p % 4294967296), line.drop (p % 4294967296 + 1))

/-- A line that does not throw. -/
structure ReadableLine (line : Str) : Prop where
  cuttable : Cuttable line
  number : ∀ k ∈ Key.numbers, (cut line).1 = k.text → (stoi (cut line).2).isSome

/-- The values of each key, in the order of the lines. -/
def valuesOf (ls : List Str) (k : Key) : List Str := Grouping.values k.text (ls.map cut)

/-- The last value as a number; without any it is 0. -/
def lastNumber (values : List Str) : Int := (values.getLast?.bind stoi).getD 0

/-- A later value replaces an earlier one, and lists go on. -/
def meantBy (values : Key → List Str) : MapReduceSpec where
  nWorkers := lastNumber (values .nWorkers)
  workerIpaddrPorts := (values .workerIpaddrPorts).flatMap (lines 44)
  inputFiles := (values .inputFiles).flatMap (lines 44)
  outputDir := (values .outputDir).getLast?.getD []
  nOutputFiles := lastNumber (values .nOutputFiles)
  mapKilobytes := lastNumber (values .mapKilobytes)
  userId := (values .userId).getLast?.getD []

/-- What the lines of a configuration mean. -/
def meant (ls : List Str) : MapReduceSpec := meantBy (valuesOf ls)

/-- The number that the whole value writes: a sign, if any, and digits. -/
def wholeInt (value : Str) : Option Int :=
  let (sign, digits) := splitSign value
  if digits ≠ [] ∧ digits.all isDigit then some (sign * digitsValue digits) else none

/-- A line `key=value`, the last one for its key, gives a positive `int` as its whole value. -/
def Given (ls : List Str) (k : Key) (n : Int) : Prop :=
  ∃ value, k.text ++ 61 :: value ∈ ls ∧ (valuesOf ls k).getLast? = some value ∧
    wholeInt value = some n ∧ 0 < n ∧ n ≤ intMax

/-- No white space comes before the number, and nothing after it. -/
def Bare (value : Str) : Prop := (splitSign value).2.all isDigit

variable {fileExists isDirectory : Str → Bool} {text line value : Str} {ls : List Str} {s spec : MapReduceSpec}
  {k k' : Key} {n : Int}

/-! ## One line -/

theorem splitLine_of_cuttable (h : Cuttable line) (hsize : line.length < 9223372036854775808) :
    splitLine line = some (cut line) := by
  rcases equals_cases line with ⟨hno, -⟩ | ⟨a, t, rfl, ha, -⟩
  · rw [splitLine_of_neg_one (intPos_of_notMem hno) hsize, cut, findFirstOf_eq_none hno]
  · have hint : intMax = 2147483647 := rfl
    have hfind : findFirstOf (a ++ 61 :: t) 61 = some a.length := findFirstOf_append ha
    simp only [cut, hfind]
    rcases h _ hfind with hwrap | hlow
    · rw [splitLine_of_neg_one (intPos_of_wrap ha hwrap) hsize, if_pos hwrap]
    · rw [splitLine_of_low ha hlow, if_neg (by omega)]

theorem splitLine_of_not_cuttable (h : ¬ Cuttable line) (hsize : line.length < 9223372036854775808) :
    splitLine line = none := by
  have hint : intMax = 2147483647 := rfl
  simp only [Cuttable, not_forall, not_or, not_lt] at h
  obtain ⟨p, hfind, hwrap, hhigh⟩ := h
  rcases equals_cases line with ⟨hno, -⟩ | ⟨a, t, rfl, ha, -⟩
  · exact absurd (hfind.symm.trans (findFirstOf_eq_none hno)) (by simp)
  · obtain rfl : p = a.length := Option.some.inj (hfind.symm.trans (findFirstOf_append ha))
    have hpos : intPos (a ++ 61 :: t) 61 = toInt32 a.length := intPos_append ha
    rcases Nat.eq_or_lt_of_le hhigh with hmax | hgt
    · refine splitAtPos_of_overflow ?_
      rw [hpos, toInt32]
      omega
    · refine splitAtPos_of_lt ?_ hsize
      rw [hpos, toInt32]
      omega

theorem Key.text_inj (h : k.text = k'.text) : k = k' := by
  cases k <;> cases k' <;> first | rfl | exact absurd h (by decide)

theorem valuesOf_concat (h : (cut line).1 = k.text) :
    valuesOf (ls ++ [line]) = Function.update (valuesOf ls) k (valuesOf ls k ++ [(cut line).2]) := by
  funext k'
  have hcut : (ls ++ [line]).map cut = ls.map cut ++ [(k.text, (cut line).2)] := by
    rw [List.map_append, List.map_singleton, ← h]
  by_cases hk : k' = k
  · subst hk
    rw [Function.update_self, valuesOf, hcut, Grouping.values_concat_self, valuesOf]
  · rw [Function.update_of_ne hk, valuesOf, hcut,
      Grouping.values_concat_of_ne fun heq => hk (Key.text_inj heq), valuesOf]

theorem valuesOf_concat_of_not_key (h : ¬ IsKey (cut line).1) : valuesOf (ls ++ [line]) = valuesOf ls := by
  funext k
  have hcut : (ls ++ [line]).map cut = ls.map cut ++ [((cut line).1, (cut line).2)] := by
    rw [List.map_append, List.map_singleton]
  rw [valuesOf, hcut, Grouping.values_concat_of_ne fun heq => h ⟨k, heq.symm⟩, valuesOf]

theorem readEntry_meantBy {values : Key → List Str} (hnumber : k ∈ Key.numbers → (stoi value).isSome) :
    readEntry (meantBy values) k.text value = some (meantBy (Function.update values k (values k ++ [value]))) := by
  rw [readEntry_text]
  cases k with
  | nWorkers | nOutputFiles | mapKilobytes =>
    obtain ⟨n, hn⟩ := Option.isSome_iff_exists.mp (hnumber (by decide))
    simp [meantBy, lastNumber, hn]
  | workerIpaddrPorts | inputFiles | outputDir | userId => simp [meantBy]

/-- A number that `stoi` does not read throws. -/
theorem readEntry_of_no_number (hk : k ∈ Key.numbers) (h : stoi value = none) : readEntry s k.text value = none := by
  rw [readEntry_text]
  cases k with
  | nWorkers | nOutputFiles | mapKilobytes => simp [h]
  | workerIpaddrPorts | inputFiles | outputDir | userId => exact absurd hk (by decide)

theorem readLine_meant (h : ReadableLine line) (hsize : line.length < 9223372036854775808) :
    readLine (meant ls) line = some (meant (ls ++ [line])) := by
  rw [readLine, splitLine_of_cuttable h.cuttable hsize, Option.bind_some]
  show readEntry (meant ls) (cut line).1 (cut line).2 = _
  by_cases hkey : IsKey (cut line).1
  · obtain ⟨k, hk⟩ := hkey
    rw [hk, meant, meant, readEntry_meantBy fun hmem => h.number k hmem hk, valuesOf_concat hk]
  · rw [readEntry_of_not_key hkey, meant, meant, valuesOf_concat_of_not_key hkey]

theorem readLine_of_not_readable (h : ¬ ReadableLine line) (hsize : line.length < 9223372036854775808) :
    readLine s line = none := by
  by_cases hcut : Cuttable line
  · obtain ⟨k, hmem, hk, hnone⟩ : ∃ k ∈ Key.numbers, (cut line).1 = k.text ∧ stoi (cut line).2 = none := by
      by_contra hno
      refine h ⟨hcut, fun k hmem hk => ?_⟩
      by_contra hsome
      exact hno ⟨k, hmem, hk, Option.not_isSome_iff_eq_none.mp hsome⟩
    rw [readLine, splitLine_of_cuttable hcut hsize, Option.bind_some]
    show readEntry s (cut line).1 (cut line).2 = none
    rw [hk, readEntry_of_no_number hmem hnone]
  · rw [readLine, splitLine_of_not_cuttable hcut hsize]
    rfl

/-! ## The text -/

theorem readLines_eq (hsize : ∀ line ∈ ls, line.length < 9223372036854775808) (h : ∀ line ∈ ls, ReadableLine line) :
    readLines (some {}) ls = some (meant ls) := by
  induction ls using List.reverseRecOn with
  | nil => rfl
  | append_singleton ls line ih =>
    have hread := ih (fun l hl => hsize l (List.mem_append_left _ hl)) fun l hl => h l (List.mem_append_left _ hl)
    have hlast : line ∈ ls ++ [line] := List.mem_append_right _ List.mem_cons_self
    calc readLines (some {}) (ls ++ [line])
        = (readLines (some {}) ls).bind (readLine · line) := List.foldl_append
      _ = readLine (meant ls) line := by rw [hread, Option.bind_some]
      _ = some (meant (ls ++ [line])) := readLine_meant (h line hlast) (hsize line hlast)

theorem readLines_none (hsize : ∀ line ∈ ls, line.length < 9223372036854775808)
    (h : ¬ ∀ line ∈ ls, ReadableLine line) :
    readLines (some {}) ls = none := by
  have hstop : ∀ ls : List Str, readLines none ls = none := by
    intro ls
    induction ls with
    | nil => rfl
    | cons line ls ih => exact ih
  simp only [not_forall] at h
  obtain ⟨line, hline, hbad⟩ := h
  obtain ⟨front, rest, rfl⟩ := List.append_of_mem hline
  rw [readLines, List.foldl_append, List.foldl_cons]
  have hthrow : (List.foldl (fun spec line => spec.bind (readLine · line)) (some {}) front).bind (readLine · line) =
      none := by
    rw [Option.bind_eq_none_iff]
    exact fun s _ => readLine_of_not_readable hbad (hsize line hline)
  rw [hthrow]
  exact hstop rest

/-! ## Numbers -/

theorem stoi_le (h : stoi value = some n) : n ≤ intMax := by
  simp only [stoi] at h
  split at h
  · next hrange =>
    obtain rfl := Option.some.inj h
    exact hrange.2.2
  · cases h

/-- A sign is no white space. -/
theorem isSpace_of_bare {c : UInt8} {t : Str} (h : Bare (c :: t)) : isSpace c = false := by
  by_cases hminus : c = 45
  · rw [hminus]
    rfl
  by_cases hplus : c = 43
  · rw [hplus]
    rfl
  simp only [Bare, splitSign, if_neg hminus, if_neg hplus, List.all_cons, Bool.and_eq_true] at h
  exact isSpace_of_isDigit h.1

theorem wholeInt_of_bare (hbare : Bare value) (h : stoi value = some n) : wholeInt value = some n := by
  have hspace : value.dropWhile isSpace = value := by
    cases value with
    | nil => rfl
    | cons c t => exact List.dropWhile_cons_of_neg (by simp [isSpace_of_bare hbare])
  have hdigits : (splitSign value).2.takeWhile isDigit = (splitSign value).2 :=
    List.takeWhile_eq_self_iff.mpr (List.all_eq_true.mp hbare)
  simp only [stoi, hspace, hdigits] at h
  split at h
  · next hrange =>
    simp only [wholeInt]
    rw [if_pos ⟨hrange.1, hbare⟩, h]
  · cases h

theorem bare_of_wholeInt (h : wholeInt value = some n) : Bare value := by
  simp only [wholeInt] at h
  split at h
  · next hdigits => exact hdigits.2
  · cases h

/-- A byte that is no sign stands behind the sign. -/
theorem mem_splitSign {c : UInt8} (hminus : c ≠ 45) (hplus : c ≠ 43) (h : c ∈ value) : c ∈ (splitSign value).2 := by
  cases value with
  | nil => cases h
  | cons d t =>
    by_cases hd : d = 45
    · rw [splitSign, if_pos hd]
      exact (List.mem_cons.mp h).resolve_left (hd ▸ hminus)
    by_cases hd' : d = 43
    · rw [splitSign, if_neg hd, if_pos hd']
      exact (List.mem_cons.mp h).resolve_left (hd' ▸ hplus)
    · rw [splitSign, if_neg hd, if_neg hd']
      exact h

theorem notMem_of_bare (h : Bare value) : 61 ∉ value := fun hmem =>
  absurd (List.all_eq_true.mp h 61 (mem_splitSign (by decide) (by decide) hmem)) (by decide)

/-- The line that gives a bare value to a key is the key, a `=` and the value. -/
theorem line_of_bare (h : cut line = (k.text, value)) (hbare : Bare value) : line = k.text ++ 61 :: value := by
  have hkey : ¬ Bare k.text := by cases k <;> unfold Bare <;> decide
  rcases equals_cases line with ⟨hno, -⟩ | ⟨a, t, rfl, ha, -⟩
  · rw [cut, findFirstOf_eq_none hno] at h
    obtain ⟨hk, hv⟩ := Prod.mk.inj h
    exact absurd (hk ▸ hv ▸ hbare) hkey
  · have hfind : findFirstOf (a ++ 61 :: t) 61 = some a.length := findFirstOf_append ha
    have hequals := notMem_of_bare hbare
    simp only [cut, hfind] at h
    split at h
    · obtain ⟨-, rfl⟩ := Prod.mk.inj h
      exact absurd (by simp) hequals
    · obtain ⟨hk, hv⟩ := Prod.mk.inj h
      -- if the position wraps, the `=` is left in the value
      have hmod : a.length % 4294967296 = a.length := by
        by_contra hne
        have hlt : a.length % 4294967296 + 1 ≤ a.length :=
          Nat.lt_of_le_of_ne (Nat.mod_le _ _) hne
        rw [List.drop_append_of_le_length hlt] at hv
        exact hequals (hv ▸ by simp)
      rw [hmod, List.take_left' rfl] at hk
      rw [hmod, ← List.drop_drop, List.drop_left' rfl, List.drop_one, List.tail_cons] at hv
      rw [hk, hv]

theorem given_of_bare {v : Str} (h : (valuesOf ls k).getLast? = some v) (hbare : Bare v) (hn : stoi v = some n)
    (hpos : 0 < n) : Given ls k n := by
  have hmem : v ∈ valuesOf ls k := List.mem_of_getLast? h
  obtain ⟨x, hx, rfl⟩ := List.mem_map.mp hmem
  obtain ⟨hx, hkey⟩ := List.mem_filter.mp hx
  obtain ⟨line, hline, rfl⟩ := List.mem_map.mp hx
  have hcut : cut line = (k.text, (cut line).2) := Prod.ext (of_decide_eq_true hkey) rfl
  exact ⟨(cut line).2, line_of_bare hcut hbare ▸ hline, h, wholeInt_of_bare hbare hn, hpos, stoi_le hn⟩

/-- A number that is not 0 was read from a value. -/
theorem exists_of_lastNumber {values : List Str} (h : 0 < lastNumber values) :
    ∃ v, values.getLast? = some v ∧ stoi v = some (lastNumber values) := by
  unfold lastNumber at h ⊢
  cases hlast : values.getLast? with
  | none =>
    rw [hlast] at h
    exact absurd h (by decide)
  | some v =>
    rw [hlast, Option.bind_some] at h
    refine ⟨v, rfl, ?_⟩
    rw [Option.bind_some]
    cases hv : stoi v with
    | none =>
      rw [hv] at h
      exact absurd h (by decide)
    | some n => rfl

/-! ## Rejected, not fatal -/

/-- The text gives all three numbers, and as many workers as it has addresses. -/
structure Proper (ls : List Str) : Prop where
  given : ∀ k ∈ Key.numbers, ∃ n, Given ls k n
  workers : Given ls .nWorkers ((valuesOf ls .workerIpaddrPorts).flatMap (lines 44)).length

theorem proper_of_bare (hvalid : validateMrSpec fileExists isDirectory (meant ls) = true)
    (hbare : ∀ k ∈ Key.numbers, ∀ value ∈ (valuesOf ls k).getLast?, Bare value) : Proper ls := by
  obtain ⟨hworkers, hlength, -, -, -, -, houtputs, hkilobytes, -⟩ := validateMrSpec_iff.mp hvalid
  have hgiven : ∀ k ∈ Key.numbers, 0 < lastNumber (valuesOf ls k) → Given ls k (lastNumber (valuesOf ls k)) := by
    intro k hk hpos
    obtain ⟨v, hlast, hv⟩ := exists_of_lastNumber hpos
    exact given_of_bare hlast (hbare k hk v hlast) hv hpos
  refine ⟨fun k hk => ⟨_, hgiven k hk ?_⟩, ?_⟩
  · cases k with
    | nWorkers => exact hworkers
    | nOutputFiles => exact houtputs
    | mapKilobytes => exact hkilobytes
    | workerIpaddrPorts | inputFiles | outputDir | userId => exact absurd hk (by decide)
  · have hcount : (((valuesOf ls .workerIpaddrPorts).flatMap (lines 44)).length : Int) =
        lastNumber (valuesOf ls .nWorkers) := hlength
    rw [hcount]
    exact hgiven .nWorkers (by decide) hworkers

/-- A text is accepted or rejected as it should be, and nothing throws, if and only if every line is
readable, and no value that ends up as a number is accepted with anything before or after its
number. -/
theorem rejects_malformed_iff (hsize : ∀ line ∈ lines 10 text, line.length < 9223372036854775808) :
    (∃ accepted, readAndValidateSpec fileExists isDirectory (some text) = some accepted ∧
      (accepted = true → Proper (lines 10 text))) ↔
    (∀ line ∈ lines 10 text, ReadableLine line) ∧
      (validateMrSpec fileExists isDirectory (meant (lines 10 text)) = true →
        ∀ k ∈ Key.numbers, ∀ value ∈ (valuesOf (lines 10 text) k).getLast?, Bare value) := by
  have hread : (∀ line ∈ lines 10 text, ReadableLine line) →
      readAndValidateSpec fileExists isDirectory (some text) =
        some (validateMrSpec fileExists isDirectory (meant (lines 10 text))) := by
    intro hall
    simp only [readAndValidateSpec, readMrSpecFromConfigFile, readLines_eq hsize hall, Option.map_some, Bool.true_and]
  constructor
  · rintro ⟨accepted, hrun, hproper⟩
    have hall : ∀ line ∈ lines 10 text, ReadableLine line := by
      by_contra hbad
      simp only [readAndValidateSpec, readMrSpecFromConfigFile, readLines_none hsize hbad, Option.map_none] at hrun
      cases hrun
    refine ⟨hall, fun hvalid k hk value hvalue => ?_⟩
    rw [hread hall, hvalid] at hrun
    obtain ⟨n, v, -, hlast, hwhole, -⟩ := (hproper (Option.some.inj hrun).symm).given k hk
    obtain rfl : v = value := Option.some.inj (hlast.symm.trans hvalue)
    exact bare_of_wholeInt hwhole
  · rintro ⟨hall, hbare⟩
    exact ⟨_, hread hall, fun hvalid => proper_of_bare hvalid (hbare hvalid)⟩

/-- Nothing is given, and nothing is accepted. -/
theorem rejects_malformed_comment : ∃ accepted,
    readAndValidateSpec (fun _ => true) (fun _ => true) (some (str "# empty")) = some accepted ∧
    (accepted = true → Proper (lines 10 (str "# empty"))) := by
  have hlines : lines 10 (str "# empty") = [str "# empty"] := by decide
  have hfind : findFirstOf (str "# empty") 61 = none := by decide
  refine (rejects_malformed_iff (by decide)).mpr ⟨fun line hline => ?_, fun hvalid => absurd hvalid (by decide)⟩
  rw [hlines, List.mem_singleton] at hline
  subst hline
  exact ⟨fun p hp => absurd (hfind.symm.trans hp) (by simp), by decide⟩

/-- A number of workers that is no number ends the process, and one that is a number only in part is
accepted. -/
theorem no_number_throws :
    readAndValidateSpec (fun _ => true) (fun _ => true) (some (str "n_workers=many")) = none ∧
    readAndValidateSpec (fun _ => true) (fun _ => true) (some (str
      "n_workers=1st\nworker_ipaddr_ports=h:1\ninput_files=f\noutput_dir=o\nn_output_files=1\nmap_kilobytes=1\nuser_id=u")) =
      some true := by
  constructor <;> decide

end AdvancedOS.MapReduce
