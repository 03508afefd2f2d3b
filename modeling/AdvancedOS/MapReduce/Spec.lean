import AdvancedOS.Lib.Lines
import AdvancedOS.MapReduce.Strings

/-!
# The configuration file

`read_mr_spec_from_config_file` reads the lines `key=value` of the configuration. `configLines` is
the writer: one line for every key. The reader inverts it in any order of the lines and with any
other lines between them, except that `int pos = line.find('=')` narrows: a line with its `=` too far
out throws, or is read as one of the seven lines.

* `validateMrSpec`: what is asked of a configuration before the job starts.
* `readLine_configLine`: what a line of the writer does.
* `readLine_of_harmless`: any other line does nothing, if its `=` is not too far out.
* `spoils`: otherwise there is a specification that is not read back.
* `config_round_trip`: the reader inverts the writer exactly if the other lines are harmless.
-/

namespace AdvancedOS.MapReduce

open Lines

structure MapReduceSpec where
  nWorkers : Int := 0
  workerIpaddrPorts : List Str := []
  inputFiles : List Str := []
  outputDir : Str := []
  nOutputFiles : Int := 0
  mapKilobytes : Int := 0
  userId : Str := []
deriving DecidableEq

/-! ## The reader -/

/-- The key and the value of a line. -/
def splitLine (line : Str) : Option (Str × Str) := splitAtPos line 61 1

/-- The chain of comparisons with the keys. -/
def readEntry (spec : MapReduceSpec) (key value : Str) : Option MapReduceSpec :=
  if key = str "n_workers" then
    (stoi value).map fun n => { spec with nWorkers := n }
  else if key = str "worker_ipaddr_ports" then
    some { spec with workerIpaddrPorts := spec.workerIpaddrPorts ++ lines 44 value }
  else if key = str "input_files" then
    some { spec with inputFiles := spec.inputFiles ++ lines 44 value }
  else if key = str "output_dir" then
    some { spec with outputDir := value }
  else if key = str "n_output_files" then
    (stoi value).map fun n => { spec with nOutputFiles := n }
  else if key = str "map_kilobytes" then
    (stoi value).map fun n => { spec with mapKilobytes := n }
  else if key = str "user_id" then
    some { spec with userId := value }
  else some spec

/-- One turn of the loop. -/
def readLine (spec : MapReduceSpec) (line : Str) : Option MapReduceSpec :=
  (splitLine line).bind fun (key, value) => readEntry spec key value

/-- The loop; after an exception there is nothing more. -/
def readLines (spec : Option MapReduceSpec) (ls : List Str) : Option MapReduceSpec :=
  ls.foldl (fun spec line => spec.bind (readLine · line)) spec

/-- A file that cannot be opened is `none`. -/
def readMrSpecFromConfigFile (file : Option Str) (spec : MapReduceSpec) : Option (Bool × MapReduceSpec) :=
  match file with
  | none => some (false, spec)
  | some text => (readLines (some spec) (lines 10 text)).map fun spec => (true, spec)

/-! ## The validator -/

/-- `validate_mr_spec`; `file_exists` and `is_directory` ask the file system. -/
def validateMrSpec (fileExists isDirectory : Str → Bool) (spec : MapReduceSpec) : Bool :=
  if spec.nWorkers ≤ 0 then false
  else if (spec.workerIpaddrPorts.length : Int) ≠ spec.nWorkers then false
  else if spec.inputFiles = [] then false
  else if spec.inputFiles.any (fun f => !fileExists f) then false
  else if spec.outputDir = [] then false
  else if !isDirectory spec.outputDir then false
  else if spec.nOutputFiles ≤ 0 then false
  else if spec.mapKilobytes ≤ 0 then false
  else if spec.userId = [] then false
  else true

theorem validateMrSpec_iff {fileExists isDirectory : Str → Bool} {spec : MapReduceSpec} :
    validateMrSpec fileExists isDirectory spec = true ↔
      0 < spec.nWorkers ∧ (spec.workerIpaddrPorts.length : Int) = spec.nWorkers ∧ spec.inputFiles ≠ [] ∧
      (∀ f ∈ spec.inputFiles, fileExists f = true) ∧ spec.outputDir ≠ [] ∧ isDirectory spec.outputDir = true ∧
      0 < spec.nOutputFiles ∧ 0 < spec.mapKilobytes ∧ spec.userId ≠ [] := by
  simp [validateMrSpec]

/-! ## The writer -/

/-- The seven keys. -/
inductive Key
  | nWorkers
  | workerIpaddrPorts
  | inputFiles
  | outputDir
  | nOutputFiles
  | mapKilobytes
  | userId
deriving DecidableEq

namespace Key

def all : List Key :=
  [nWorkers, workerIpaddrPorts, inputFiles, outputDir, nOutputFiles, mapKilobytes, userId]

def text : Key → Str
  | nWorkers => str "n_workers"
  | workerIpaddrPorts => str "worker_ipaddr_ports"
  | inputFiles => str "input_files"
  | outputDir => str "output_dir"
  | nOutputFiles => str "n_output_files"
  | mapKilobytes => str "map_kilobytes"
  | userId => str "user_id"

/-- What the line of this key says. -/
def value (spec : MapReduceSpec) : Key → Str
  | nWorkers => decimalInt spec.nWorkers
  | workerIpaddrPorts => [44].intercalate spec.workerIpaddrPorts
  | inputFiles => [44].intercalate spec.inputFiles
  | outputDir => spec.outputDir
  | nOutputFiles => decimalInt spec.nOutputFiles
  | mapKilobytes => decimalInt spec.mapKilobytes
  | userId => spec.userId

/-- The field of this key is read from `spec`; the lists are read at the end of what is there. -/
def put (spec s : MapReduceSpec) : Key → MapReduceSpec
  | nWorkers => { s with nWorkers := spec.nWorkers }
  | workerIpaddrPorts => { s with workerIpaddrPorts := s.workerIpaddrPorts ++ spec.workerIpaddrPorts }
  | inputFiles => { s with inputFiles := s.inputFiles ++ spec.inputFiles }
  | outputDir => { s with outputDir := spec.outputDir }
  | nOutputFiles => { s with nOutputFiles := spec.nOutputFiles }
  | mapKilobytes => { s with mapKilobytes := spec.mapKilobytes }
  | userId => { s with userId := spec.userId }

end Key

def configLine (spec : MapReduceSpec) (k : Key) : Str := k.text ++ 61 :: k.value spec

def configLines (spec : MapReduceSpec) : List Str := Key.all.map (configLine spec)

/-- The text with these lines, with or without a newline after the last one. -/
def configText (ls : List Str) (final : Bool) : Str :=
  if final then unlines 10 ls else [10].intercalate ls

/-- A value of type `int`. -/
def IsInt (n : Int) : Prop := -(intMax : Int) - 1 ≤ n ∧ n ≤ intMax

/-- A list that the format can tell from every other list. -/
def IsList (ws : List Str) : Prop :=
  ws ≠ [] ∧ (∀ w ∈ ws.getLast?, w ≠ []) ∧ ∀ w ∈ ws, 44 ∉ w ∧ 10 ∉ w

structure Writable (spec : MapReduceSpec) : Prop where
  nWorkers : IsInt spec.nWorkers
  workerIpaddrPorts : IsList spec.workerIpaddrPorts
  inputFiles : IsList spec.inputFiles
  outputDir : 10 ∉ spec.outputDir
  nOutputFiles : IsInt spec.nOutputFiles
  mapKilobytes : IsInt spec.mapKilobytes
  userId : 10 ∉ spec.userId

def IsKey (s : Str) : Prop := ∃ k : Key, s = k.text

/-- A line that is none of the seven: what stands before its first `=` is not a key. A string has at
most `2^63 - 1` bytes. -/
structure Foreign (line : Str) : Prop where
  size : line.length < 9223372036854775808
  newline : 10 ∉ line
  key : ¬ IsKey (firstLine 61 line)

/-- The position of the first `=` as an `int` is `-1`, or it is not negative, has a successor, and
what stands before it is not a key. -/
def Harmless (line : Str) : Prop :=
  ∀ p, findFirstOf line 61 = some p →
    p % 4294967296 = 4294967295 ∨
      p % 4294967296 < intMax ∧ ¬ IsKey (line.take (p % 4294967296))

instance (s : Str) : Decidable (IsKey s) :=
  decidable_of_iff (∃ k ∈ Key.all, s = k.text)
    ⟨fun ⟨k, _, h⟩ => ⟨k, h⟩, fun ⟨k, h⟩ => ⟨k, by cases k <;> simp [Key.all], h⟩⟩

variable {spec s s' : MapReduceSpec} {line key value a t : Str} {k : Key} {p : Nat}

/-! ## What a line does -/

/-- A line has no `=`, or one that stands after the key. -/
theorem equals_cases (line : Str) :
    61 ∉ line ∧ firstLine 61 line = line ∨
      ∃ a t, line = a ++ 61 :: t ∧ 61 ∉ a ∧ firstLine 61 line = a := by
  rcases firstLine_append (61 : UInt8) line with ⟨heq, hno⟩ | ⟨t, heq⟩
  · exact .inl ⟨hno, heq.symm⟩
  · exact .inr ⟨firstLine 61 line, t, heq, notMem_firstLine, rfl⟩

/-- The whole line is the key and the value. -/
theorem splitLine_of_neg_one (h : intPos line 61 = -1) (hsize : line.length < 9223372036854775808) :
    splitLine line = some (line, line) := by
  have hneg : intPos line 61 < 0 := by omega
  have hnext : intPos line 61 + (1 : Nat) = (0 : Nat) := by omega
  exact splitAtPos_of_neg hneg hnext (Nat.zero_le _) (Nat.zero_le _) hsize

/-- The position of the first `=` is read as that of no `=`. -/
theorem intPos_of_wrap {a t : Str} (ha : 61 ∉ a) (hwrap : a.length % 4294967296 = 4294967295) :
    intPos (a ++ 61 :: t) 61 = -1 := by
  rw [intPos_append ha, toInt32]
  omega

/-- The line is cut where its first `=` is taken to be. -/
theorem splitLine_of_low {a t : Str} (ha : 61 ∉ a) (hlow : a.length % 4294967296 < intMax) :
    splitLine (a ++ 61 :: t) = some ((a ++ 61 :: t).take (a.length % 4294967296),
      (a ++ 61 :: t).drop (a.length % 4294967296 + 1)) := by
  have hint : intMax = 2147483647 := rfl
  have hnat : intPos (a ++ 61 :: t) 61 = (a.length % 4294967296 : Nat) := by
    rw [intPos_append ha, toInt32]
    omega
  have hlt : a.length % 4294967296 < (a ++ 61 :: t).length :=
    (Nat.mod_le _ _).trans_lt (by simp)
  rw [splitLine, splitAtPos_of_pos hnat hlow hlt]

theorem readEntry_of_not_key (h : ¬ IsKey key) : readEntry s key value = some s := by
  have hne : ∀ k : Key, ¬ key = k.text := fun k hk => h ⟨k, hk⟩
  exact (if_neg (hne .nWorkers)).trans <| (if_neg (hne .workerIpaddrPorts)).trans <|
    (if_neg (hne .inputFiles)).trans <| (if_neg (hne .outputDir)).trans <|
    (if_neg (hne .nOutputFiles)).trans <| (if_neg (hne .mapKilobytes)).trans <| if_neg (hne .userId)

/-- What is read after each of the keys. -/
theorem readEntry_text (k : Key) : readEntry s k.text value =
    match k with
    | .nWorkers => (stoi value).map fun n => { s with nWorkers := n }
    | .workerIpaddrPorts => some { s with workerIpaddrPorts := s.workerIpaddrPorts ++ lines 44 value }
    | .inputFiles => some { s with inputFiles := s.inputFiles ++ lines 44 value }
    | .outputDir => some { s with outputDir := value }
    | .nOutputFiles => (stoi value).map fun n => { s with nOutputFiles := n }
    | .mapKilobytes => (stoi value).map fun n => { s with mapKilobytes := n }
    | .userId => some { s with userId := value } := by
  cases k <;> rfl

theorem IsList.lines_eq {ws : List Str} (h : IsList ws) : lines 44 ([44].intercalate ws) = ws :=
  lines_intercalate (fun w hw => (h.2.2 w hw).1) h.2.1

/-- The value of each key is read back. -/
theorem readEntry_value (h : Writable spec) : readEntry s k.text (k.value spec) = some (k.put spec s) := by
  rw [readEntry_text]
  cases k with
  | nWorkers => simp [Key.value, Key.put, stoi_decimalInt h.nWorkers.1 h.nWorkers.2]
  | workerIpaddrPorts => simp [Key.value, Key.put, h.workerIpaddrPorts.lines_eq]
  | inputFiles => simp [Key.value, Key.put, h.inputFiles.lines_eq]
  | outputDir => rfl
  | nOutputFiles => simp [Key.value, Key.put, stoi_decimalInt h.nOutputFiles.1 h.nOutputFiles.2]
  | mapKilobytes => simp [Key.value, Key.put, stoi_decimalInt h.mapKilobytes.1 h.mapKilobytes.2]
  | userId => rfl

theorem Key.text_ok (k : Key) : 61 ∉ k.text ∧ 10 ∉ k.text ∧ k.text.length < 20 := by
  cases k <;> decide

theorem readLine_configLine (h : Writable spec) :
    readLine s (configLine spec k) = some (k.put spec s) := by
  obtain ⟨hequals, -, hlength⟩ := k.text_ok
  have hint : intMax = 2147483647 := rfl
  have hpos : intPos (configLine spec k) 61 = k.text.length :=
    (intPos_append hequals).trans (toInt32_of_le (by omega) (by omega))
  have hsplit : splitLine (configLine spec k) = some (k.text, k.value spec) := by
    rw [splitLine, splitAtPos_of_pos hpos (by omega) (by simp [configLine]), configLine]
    simp
  rw [readLine, hsplit]
  exact readEntry_value h

/-- A line that is none of the seven does nothing, if its `=` is not too far out. -/
theorem readLine_of_harmless (hline : Foreign line) (h : Harmless line) : readLine s line = some s := by
  rcases equals_cases line with ⟨hno, hwhole⟩ | ⟨a, t, rfl, ha, -⟩
  · rw [readLine, splitLine_of_neg_one (intPos_of_notMem hno) hline.size]
    exact readEntry_of_not_key (hwhole ▸ hline.key)
  · rcases h _ (findFirstOf_append ha) with hwrap | ⟨hlow, hkey⟩
    · -- the line is its own key, and it contains a `=`
      have hnot : ¬ IsKey (a ++ 61 :: t) := by
        rintro ⟨k, hk⟩
        exact k.text_ok.1 (hk ▸ by simp)
      rw [readLine, splitLine_of_neg_one (intPos_of_wrap ha hwrap) hline.size]
      exact readEntry_of_not_key hnot
    · rw [readLine, splitLine_of_low ha hlow]
      exact readEntry_of_not_key hkey

/-! ## What a text does -/

theorem Key.put_comm (k k' : Key) : k.put spec (k'.put spec s) = k'.put spec (k.put spec s) := by
  cases k <;> cases k' <;> rfl

theorem readLines_of_harmless {others : List Str} (h : ∀ line ∈ others, Foreign line ∧ Harmless line) :
    readLines (some s) others = some s := by
  induction others with
  | nil => rfl
  | cons line others ih =>
    obtain ⟨hline, hharmless⟩ := h line List.mem_cons_self
    calc readLines (some s) (line :: others)
        = readLines (readLine s line) others := rfl
      _ = readLines (some s) others := by rw [readLine_of_harmless hline hharmless]
      _ = some s := ih fun l hl => h l (List.mem_cons_of_mem line hl)

theorem readLines_configLines (h : Writable spec) : readLines (some {}) (configLines spec) = some spec := by
  simp only [readLines, configLines, Key.all, List.map_cons, List.map_nil, List.foldl_cons,
    List.foldl_nil, Option.bind_some, readLine_configLine h]
  rfl

/-- Every line reads one field, or does nothing; these steps commute. -/
theorem readLines_of_perm {others ls : List Str} (h : Writable spec)
    (hothers : ∀ line ∈ others, Foreign line ∧ Harmless line)
    (hperm : ls.Perm (configLines spec ++ others)) : readLines (some {}) ls = some spec := by
  have hstep : ∀ line ∈ configLines spec ++ others,
      (∃ k : Key, ∀ s, readLine s line = some (k.put spec s)) ∨ ∀ s, readLine s line = some s := by
    intro line hline
    rcases List.mem_append.mp hline with hline | hline
    · obtain ⟨k, -, rfl⟩ := List.mem_map.mp hline
      exact .inl ⟨k, fun s => readLine_configLine h⟩
    · exact .inr fun s => readLine_of_harmless (hothers line hline).1 (hothers line hline).2
  have hcomm : ∀ x ∈ configLines spec ++ others, ∀ y ∈ configLines spec ++ others,
      ∀ s : Option MapReduceSpec,
        (s.bind (readLine · x)).bind (readLine · y) = (s.bind (readLine · y)).bind (readLine · x) := by
    intro x hx y hy s
    cases s with
    | none => rfl
    | some s =>
      rcases hstep x hx with ⟨k, hk⟩ | hid <;> rcases hstep y hy with ⟨k', hk'⟩ | hid'
      · simp only [Option.bind_some, hk, hk', k.put_comm k']
      · simp only [Option.bind_some, hk, hid']
      · simp only [Option.bind_some, hid, hk']
      · simp only [Option.bind_some, hid, hid']
  calc readLines (some {}) ls
      = readLines (some {}) (configLines spec ++ others) := (hperm.symm.foldl_eq' hcomm _).symm
    _ = readLines (readLines (some {}) (configLines spec)) others := List.foldl_append
    _ = readLines (some spec) others := by rw [readLines_configLines h]
    _ = some spec := readLines_of_harmless hothers

/-- What the splitter loses is an empty line, which does nothing. -/
theorem readLines_configText {ls : List Str} {final : Bool} {s : Option MapReduceSpec}
    (h : ∀ line ∈ ls, 10 ∉ line) : readLines s (lines 10 (configText ls final)) = readLines s ls := by
  cases final with
  | true => exact congrArg (readLines s) (lines_unlines h)
  | false =>
    rcases List.eq_nil_or_concat ls with rfl | ⟨ls, line, rfl⟩
    · rfl
    · rw [List.concat_eq_append] at h ⊢
      have hsplit : lines 10 (configText (ls ++ [line]) false) = ls ++ if line = [] then [] else [line] :=
        lines_intercalate_concat (fun l hl => h l (by simp [hl])) (h line (by simp))
      rw [hsplit]
      split
      · next hnil =>
        have hempty : ∀ s : Option MapReduceSpec, s.bind (readLine · []) = s := by
          rintro (_ | s) <;> rfl
        rw [hnil, List.append_nil, readLines, readLines, List.foldl_append]
        exact (hempty _).symm
      · rfl

theorem notMem_configLine (h : Writable spec) (k : Key) : 10 ∉ configLine spec k := by
  have hint : ∀ n : Int, (10 : UInt8) ∉ decimalInt n := by
    intro n hmem
    unfold decimalInt at hmem
    split at hmem
    · rcases List.mem_cons.mp hmem with h10 | hmem
      · exact absurd h10 (by decide)
      · exact absurd (isDigit_of_mem_decimal hmem) (by decide)
    · exact absurd (isDigit_of_mem_decimal hmem) (by decide)
  have hlist : ∀ {ws : List Str}, IsList ws → (10 : UInt8) ∉ [44].intercalate ws := by
    intro ws hws hmem
    rcases mem_intercalate hmem with h10 | ⟨w, hw, h10⟩
    · exact absurd h10 (by decide)
    · exact (hws.2.2 w hw).2 h10
  have hvalue : 10 ∉ k.value spec := by
    cases k with
    | nWorkers => exact hint _
    | workerIpaddrPorts => exact hlist h.workerIpaddrPorts
    | inputFiles => exact hlist h.inputFiles
    | outputDir => exact h.outputDir
    | nOutputFiles => exact hint _
    | mapKilobytes => exact hint _
    | userId => exact h.userId
  intro hmem
  rcases List.mem_append.mp hmem with hmem | hmem
  · exact k.text_ok.2.1 hmem
  · rcases List.mem_cons.mp hmem with h10 | hmem
    · exact absurd h10 (by decide)
    · exact hvalue hmem

/-- The text is read line by line. -/
theorem read_configText {others ls : List Str} {final : Bool} (h : Writable spec)
    (hothers : ∀ line ∈ others, Foreign line) (hperm : ls.Perm (configLines spec ++ others)) :
    readMrSpecFromConfigFile (some (configText ls final)) {} =
      (readLines (some {}) ls).map fun s => (true, s) := by
  have hnewline : ∀ line ∈ ls, 10 ∉ line := by
    intro line hline
    rcases List.mem_append.mp (hperm.mem_iff.mp hline) with hline | hline
    · obtain ⟨k, -, rfl⟩ := List.mem_map.mp hline
      exact notMem_configLine h k
    · exact (hothers line hline).newline
  simp only [readMrSpecFromConfigFile]
  rw [readLines_configText hnewline]

/-! ## Lines that are not harmless -/

/-- A specification that no line with the value `v` ends. -/
def unlike (v : Str) : MapReduceSpec :=
  let n : Int := if stoi v = some 0 then 1 else 0
  let ws : List Str := if (lines 44 v).getLast? = some [97] then [[98]] else [[97]]
  { nWorkers := n, workerIpaddrPorts := ws, inputFiles := ws, outputDir := [], nOutputFiles := n,
    mapKilobytes := n, userId := [] }

theorem writable_unlike (v : Str) : Writable (unlike v) := by
  have hint : IsInt (if stoi v = some 0 then 1 else 0) := by split <;> constructor <;> decide
  have hlist : IsList (if (lines 44 v).getLast? = some [97] then [[98]] else [[97]]) := by
    split <;> refine ⟨by decide, by decide, by decide⟩
  exact ⟨hint, hlist, hlist, List.not_mem_nil, hint, hint, List.not_mem_nil⟩

theorem readEntry_unlike (k : Key) (hvalue : value ≠ []) :
    readEntry s k.text value ≠ some (unlike value) := by
  have hint : ∀ {f : Int → MapReduceSpec} (get : MapReduceSpec → Int),
      get (unlike value) = (if stoi value = some 0 then 1 else 0) → (∀ n, get (f n) = n) →
      (stoi value).map f ≠ some (unlike value) := by
    intro f get hget hf h
    obtain ⟨n, hn, heq⟩ := Option.map_eq_some_iff.mp h
    have hval : n = if stoi value = some 0 then 1 else 0 := by rw [← hf n, heq, hget]
    rw [hn] at hval
    split at hval
    · next h0 =>
      obtain rfl := Option.some.inj h0
      exact absurd hval (by decide)
    · next h0 => exact h0 (congrArg some hval)
  have hlist : ∀ {ws : List Str},
      ws ++ lines 44 value ≠ if (lines 44 value).getLast? = some [97] then [[98]] else [[97]] := by
    intro ws h
    have hlast := congrArg List.getLast? h
    rw [List.getLast?_append_of_ne_nil _ (mt lines_eq_nil.mp hvalue)] at hlast
    split at hlast
    · next h97 => exact absurd (h97.symm.trans hlast) (by decide)
    · next h97 => exact h97 hlast
  rw [readEntry_text]
  cases k with
  | nWorkers => exact hint MapReduceSpec.nWorkers rfl fun n => rfl
  | workerIpaddrPorts => exact fun h => hlist (congrArg MapReduceSpec.workerIpaddrPorts (Option.some.inj h))
  | inputFiles => exact fun h => hlist (congrArg MapReduceSpec.inputFiles (Option.some.inj h))
  | outputDir => exact fun h => hvalue (congrArg MapReduceSpec.outputDir (Option.some.inj h))
  | nOutputFiles => exact hint MapReduceSpec.nOutputFiles rfl fun n => rfl
  | mapKilobytes => exact hint MapReduceSpec.mapKilobytes rfl fun n => rfl
  | userId => exact fun h => hvalue (congrArg MapReduceSpec.userId (Option.some.inj h))

/-- A line whose `=` is too far out throws, or it is read as one of the seven. -/
theorem spoils (hline : Foreign line) (h : ¬ Harmless line) :
    ∃ spec, Writable spec ∧ ∀ s, readLine s line ≠ some spec := by
  have hint : intMax = 2147483647 := rfl
  simp only [Harmless, not_forall, not_or, not_and, not_not] at h
  obtain ⟨p, hfind, hwrap, hkey⟩ := h
  rcases equals_cases line with ⟨hno, -⟩ | ⟨a, t, rfl, ha, hfirst⟩
  · exact absurd (hfind.symm.trans (findFirstOf_eq_none hno)) (by simp)
  obtain rfl : p = a.length := Option.some.inj (hfind.symm.trans (findFirstOf_append ha))
  have hpos : intPos (a ++ 61 :: t) 61 = toInt32 a.length := intPos_append ha
  rcases Nat.lt_trichotomy (a.length % 4294967296) intMax with hlow | hmax | hhigh
  · obtain ⟨k, hk⟩ := hkey hlow
    have hne : a.length % 4294967296 ≠ a.length := by
      intro hmod
      rw [hmod, List.take_left' rfl] at hk
      exact hline.key ⟨k, hfirst.trans hk⟩
    have hlt : a.length % 4294967296 < a.length := lt_of_le_of_ne (Nat.mod_le _ _) hne
    have hlength : (a ++ 61 :: t).length = a.length + (t.length + 1) := by simp
    have hnat : intPos (a ++ 61 :: t) 61 = (a.length % 4294967296 : Nat) := by
      rw [hpos, toInt32]
      omega
    -- the value is not empty: the `=` that was found is still in it
    have hvalue : (a ++ 61 :: t).drop (a.length % 4294967296 + 1) ≠ [] := by
      rw [Ne, List.drop_eq_nil_iff]
      omega
    refine ⟨unlike ((a ++ 61 :: t).drop (a.length % 4294967296 + 1)), writable_unlike _, fun s => ?_⟩
    rw [readLine, splitLine, splitAtPos_of_pos hnat hlow (by omega), hk]
    exact readEntry_unlike k hvalue
  · have hnone : splitLine (a ++ 61 :: t) = none := by
      refine splitAtPos_of_overflow ?_
      rw [hpos, toInt32]
      omega
    exact ⟨unlike [], writable_unlike _, fun s => by simp [readLine, hnone]⟩
  · have hneg : intPos (a ++ 61 :: t) 61 + (1 : Nat) < 0 := by
      rw [hpos, toInt32]
      omega
    have hnone : splitLine (a ++ 61 :: t) = none := splitAtPos_of_lt hneg hline.size
    exact ⟨unlike [], writable_unlike _, fun s => by simp [readLine, hnone]⟩

/-! ## The round trip -/

/-- With these other lines every specification is read back, in every order of the lines, if and only
if the position of the first `=` of each of them survives the conversion to `int`. -/
theorem config_round_trip {others : List Str} (hothers : ∀ line ∈ others, Foreign line) :
    (∀ (spec : MapReduceSpec) (ls : List Str) (final : Bool),
      Writable spec → ls.Perm (configLines spec ++ others) →
      readMrSpecFromConfigFile (some (configText ls final)) {} = some (true, spec)) ↔
    ∀ line ∈ others, Harmless line := by
  constructor
  · intro h line hline
    by_contra hharm
    obtain ⟨spec, hspec, hspoil⟩ := spoils (hothers line hline) hharm
    -- the line that is not harmless comes last
    have hperm : (configLines spec ++ (others.erase line ++ [line])).Perm (configLines spec ++ others) :=
      (List.perm_append_singleton _ _).trans (List.perm_cons_erase hline).symm |>.append_left _
    have hread := h spec _ true hspec hperm
    rw [read_configText hspec hothers hperm, ← List.append_assoc, readLines, List.foldl_append] at hread
    obtain ⟨s, hs, heq⟩ := Option.map_eq_some_iff.mp hread
    obtain rfl : s = spec := congrArg Prod.snd heq
    obtain ⟨s', -, hs'⟩ := Option.bind_eq_some_iff.mp hs
    exact hspoil s' hs'
  · intro h spec ls final hspec hperm
    rw [read_configText hspec hothers hperm,
      readLines_of_perm hspec (fun line hline => ⟨hothers line hline, h line hline⟩) hperm]
    rfl

/-- The configuration of the tests, in short. -/
def sampleSpec : MapReduceSpec :=
  { nWorkers := 2
    workerIpaddrPorts := [str "localhost:50051", str "localhost:50052"]
    inputFiles := [str "input/testdata_1.txt"]
    outputDir := str "output"
    nOutputFiles := 8
    mapKilobytes := 100
    userId := str "cs=6210" }

theorem config_round_trip_comment :
    (∀ (spec : MapReduceSpec) (ls : List Str) (final : Bool),
      Writable spec → ls.Perm (configLines spec ++ [str "# workers = 2", []]) →
      readMrSpecFromConfigFile (some (configText ls final)) {} = some (true, spec)) ↔
    ∀ line ∈ [str "# workers = 2", []], Harmless line :=
  config_round_trip (by
    intro line hline
    rcases List.mem_pair.mp hline with rfl | rfl
    · exact ⟨by decide, by decide, by decide⟩
    · exact ⟨by decide, by decide, by decide⟩)

/-- A line with its `=` after `n` other bytes. -/
def aLine (n : Nat) : Str := List.replicate n 97 ++ [61]

theorem notMem_replicate {n : Nat} {c : UInt8} (hc : c ≠ 97) : c ∉ List.replicate n (97 : UInt8) :=
  fun hmem => hc (List.eq_of_mem_replicate hmem)

theorem foreign_aLine {n : Nat} (hkey : 20 ≤ n) (hsize : n < 9223372036854775807) : Foreign (aLine n) := by
  refine ⟨?_, ?_, ?_⟩
  · rw [aLine, List.length_append, List.length_replicate, List.length_singleton]
    omega
  · rw [aLine, List.mem_append, not_or]
    exact ⟨notMem_replicate (by decide), by decide⟩
  · rw [aLine, firstLine_append_sep (notMem_replicate (by decide))]
    rintro ⟨k, hk⟩
    have hlength := congrArg List.length hk
    rw [List.length_replicate] at hlength
    have hshort := k.text_ok.2.2
    omega

/-- From `2^31` bytes on the position of the `=` is negative. -/
theorem readLine_aLine {n : Nat} (hlow : 2147483648 ≤ n) (hhigh : n < 4294967295) :
    readLine s (aLine n) = none := by
  have hpos : intPos (aLine n) 61 = toInt32 n := by
    rw [aLine, intPos_append (notMem_replicate (by decide)), List.length_replicate]
  have hneg : intPos (aLine n) 61 + (1 : Nat) < 0 := by
    rw [hpos, toInt32]
    omega
  have hforeign : Foreign (aLine n) := foreign_aLine (by omega) (by omega)
  rw [readLine, splitLine, splitAtPos_of_lt hneg hforeign.size]
  rfl

theorem writable_sampleSpec : Writable sampleSpec :=
  ⟨by constructor <;> decide, by refine ⟨by decide, by decide, by decide⟩,
    by refine ⟨by decide, by decide, by decide⟩, by decide, by constructor <;> decide,
    by constructor <;> decide, by decide⟩

/-- One other line of `2^31` bytes before its `=`, and `substr` throws. -/
theorem long_line_throws :
    Writable sampleSpec ∧ Foreign (aLine 2147483648) ∧
      readMrSpecFromConfigFile
        (some (configText (configLines sampleSpec ++ [aLine 2147483648]) true)) {} = none := by
  have hforeign : Foreign (aLine 2147483648) := foreign_aLine (by decide) (by decide)
  have hothers : ∀ line ∈ [aLine 2147483648], Foreign line := by
    intro line hline
    rw [List.mem_singleton.mp hline]
    exact hforeign
  refine ⟨writable_sampleSpec, hforeign, ?_⟩
  rw [read_configText writable_sampleSpec hothers (List.Perm.refl _), readLines, List.foldl_append,
    List.foldl_cons, List.foldl_nil, Option.map_eq_none_iff, Option.bind_eq_none_iff]
  exact fun s _ => readLine_aLine (by decide) (by decide)

end AdvancedOS.MapReduce
