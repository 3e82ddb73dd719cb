import Btpd.Info.Entry
import Btpd.Metainfo.Files

/-!
# When an entry survives a restart

The text that `save_info` prints is one dictionary of the grammar, and the copy
through `dct_subst_save` leaves it as it is.  What `load_info` makes of the file
is decided by three tests on the strings and by the size of its array.
-/

namespace Btpd.Info

open Btpd.Benc Btpd.Metainfo

/-! ## The printed dictionary -/

/-- The pairs as they are printed. -/
def printed (pairs : List (List UInt8 × List UInt8)) : List (List UInt8 × List UInt8) :=
  pairs.map fun pair => (bencodeStr pair.1, pair.2)

/-- Keys that `"%.*s"` writes in full. -/
def PlainKeys (pairs : List (List UInt8 × List UInt8)) : Prop :=
  ∀ pair ∈ pairs, 0 ∉ pair.1 ∧ pair.1.length ≤ INT_MAX

theorem str_of_mem_printed (pairs : List (List UInt8 × List UInt8)) :
    ∀ pair ∈ printed pairs, Str pair.1 := by
  simp only [printed, List.forall_mem_map]
  exact fun pair _ => str_bencodeStr pair.1

theorem value_of_mem_printed {pairs : List (List UInt8 × List UInt8)}
    (values : ∀ pair ∈ pairs, Value pair.2) : ∀ pair ∈ printed pairs, Value pair.2 := by
  simpa only [printed, List.forall_mem_map] using values

/-- The members of the dictionary `info`. -/
def infoMembers (tl : Tlib) (name dir label : CString) : List (List UInt8 × List UInt8) :=
  [(literal "content have", bencodeInt tl.contentHave.toInt),
    (literal "content size", bencodeInt tl.contentSize.toInt),
    (literal "dir", bencodeStr dir.bytes),
    (literal "name", bencodeStr name.bytes),
    (literal "label", bencodeStr label.bytes),
    (literal "total download", bencodeInt tl.totDown.toInt64.toInt),
    (literal "total upload", bencodeInt tl.totUp.toInt64.toInt)]

/-- The bytes of the dictionary `info`. -/
def infoDict (tl : Tlib) (name dir label : CString) : List UInt8 :=
  container 'd'.toUInt8 (pairElems (printed (infoMembers tl name dir label)))

/-- The bytes of the file. -/
def infoFile (tl : Tlib) (name dir label : CString) : List UInt8 :=
  container 'd'.toUInt8 (pairElems (printed [(literal "info", infoDict tl name dir label)]))

theorem toInt_of_le {n : Nat} (small : n ≤ INT_MAX) : toInt n = n := by
  unfold INT_MAX at small
  unfold toInt
  omega

theorem printStr_of_le {s : List UInt8} (small : s.length ≤ INT_MAX) :
    printStr s = bencodeStr s := by
  rw [printStr, toInt_of_le small, printInt_natCast, bencodeStr, List.append_assoc]
  rfl

theorem keys_eq :
    bencodeStr (literal "info") = literal "4:info" ∧
      bencodeStr (literal "content have") = literal "12:content have" ∧
      bencodeStr (literal "content size") = literal "12:content size" ∧
      bencodeStr (literal "dir") = literal "3:dir" ∧
      bencodeStr (literal "name") = literal "4:name" ∧
      bencodeStr (literal "label") = literal "5:label" ∧
      bencodeStr (literal "total download") = literal "14:total download" ∧
      bencodeStr (literal "total upload") = literal "12:total upload" := by
  decide +kernel

/-- The format of `save_info`, cut at the values. -/
theorem format_eq :
    literal "d4:infod" = 'd'.toUInt8 :: (literal "4:info" ++ ['d'.toUInt8]) ∧
      literal "12:content havei" = literal "12:content have" ++ ['i'.toUInt8] ∧
      literal "e12:content sizei" = 'e'.toUInt8 :: (literal "12:content size" ++ ['i'.toUInt8]) ∧
      literal "e3:dir" = 'e'.toUInt8 :: literal "3:dir" ∧
      literal "14:total downloadi" = literal "14:total download" ++ ['i'.toUInt8] ∧
      literal "e12:total uploadi" = 'e'.toUInt8 :: (literal "12:total upload" ++ ['i'.toUInt8]) ∧
      literal "e" = ['e'.toUInt8] ∧ literal "ee" = ['e'.toUInt8, 'e'.toUInt8] := by
  decide

/-- With every string present and short enough for an `int`, the text is the
dictionary of the file. -/
theorem infoText_eq {tl : Tlib} {name dir label : CString} (hasName : tl.name = some name)
    (hasDir : tl.dir = some dir) (hasLabel : tl.label = some label)
    (nameShort : name.bytes.length ≤ INT_MAX) (dirShort : dir.bytes.length ≤ INT_MAX)
    (labelShort : label.bytes.length ≤ INT_MAX) :
    infoText tl = .ok (infoFile tl name dir label) := by
  obtain ⟨infoKey, haveKey, sizeKey, dirKey, nameKey, labelKey, downKey, upKey⟩ := keys_eq
  obtain ⟨start, haveEq, sizeEq, dirEq, downEq, upEq, eEq, eeEq⟩ := format_eq
  rw [infoText, hasName, hasDir, hasLabel]
  simp only [derefStr, bind, Except.bind, pure, Except.pure, printStr_of_le nameShort,
    printStr_of_le dirShort, printStr_of_le labelShort, infoFile, infoDict, infoMembers, printed,
    List.map_cons, List.map_nil, pairElems_cons, pairElems_nil, container, infoKey, haveKey, sizeKey, dirKey, nameKey, labelKey, downKey, upKey,
    start, haveEq, sizeEq, dirEq, downEq, upEq, eEq, eeEq, bencodeInt, List.flatten_cons,
    List.flatten_nil, List.append_assoc, List.cons_append, List.nil_append, List.append_nil]

theorem value_infoDict (tl : Tlib) (name dir label : CString) :
    ∀ pair ∈ infoMembers tl name dir label, Value pair.2 := by
  simp only [infoMembers, List.forall_mem_cons, List.not_mem_nil, false_implies, implies_true,
    and_true]
  exact ⟨value_bencodeInt _, value_bencodeInt _, .str (str_bencodeStr _), .str (str_bencodeStr _),
    .str (str_bencodeStr _), value_bencodeInt _, value_bencodeInt _⟩

/-- A printed dictionary is a value. -/
theorem value_printed {pairs : List (List UInt8 × List UInt8)}
    (values : ∀ pair ∈ pairs, Value pair.2) :
    Value (container 'd'.toUInt8 (pairElems (printed pairs))) :=
  .dict _ (str_of_mem_printed pairs) (value_of_mem_printed values)

theorem value_infoFile (tl : Tlib) (name dir label : CString) :
    ∀ pair ∈ [(literal "info", infoDict tl name dir label)], Value pair.2 := by
  rw [List.forall_mem_singleton]
  exact value_printed (value_infoDict tl name dir label)

/-! ## The copy -/

section

variable {buffer : Buffer} {fuel p : Nat}

theorem readStr_eq {bs : List UInt8} (held : buffer.Holds p bs) (noZero : 0 ∉ bs) :
    readStr buffer bs.length p = .ok bs := by
  induction bs generalizing p with
  | nil => rfl
  | cons c bs ih =>
      have nonzero : ¬ c = 0 := fun zero => noZero (zero ▸ List.mem_cons_self)
      have later := ih held.tail fun mem => noZero (List.mem_cons_of_mem _ mem)
      simp only [List.length_cons, readStr, held.read_eq, if_neg nonzero, held.ptrAdd_one, later,
        bind, Except.bind, pure, Except.pure]

/-- A pair with a printed key is copied as it is. -/
theorem savePair_eq {key v rest : List UInt8} {pairs : List (List UInt8 × List UInt8)}
    (noZero : 0 ∉ key) (short : key.length ≤ INT_MAX) (value : Value v)
    (keys : ∀ pair ∈ pairs, Str pair.1) (values : ∀ pair ∈ pairs, Value pair.2)
    (held : buffer.Holds p (bencodeStr key ++ (v ++
      ((pairElems pairs).flatten ++ 'e'.toUInt8 :: rest))))
    (enough : 2 * (bencodeStr key ++ v).length ≤ fuel) :
    savePair buffer fuel p = .ok (bencodeStr key ++ v,
      startOf (p + (bencodeStr key).length + v.length) (pairElems pairs)) := by
  rw [List.length_append, length_bencodeStr] at enough
  obtain ⟨c, tail, vEq, -⟩ := value.head
  have at_c : buffer.Holds p (decimal key.length ++ ':'.toUInt8 :: key ++ c :: (tail ++
      ((pairElems pairs).flatten ++ 'e'.toUInt8 :: rest))) := by
    rw [vEq] at held
    exact held
  have notEnd : nextElem (p + (bencodeStr key).length) c = some (p + (bencodeStr key).length) :=
    if_neg (vEq ▸ value).head_ne_e
  have header : bencMemNext buffer fuel p = .ok (some (p + (decimal key.length).length + 1,
      key.length, some (p + (bencodeStr key).length))) := by
    rw [← notEnd]
    exact bencMemNext_eq at_c (isDigits_decimal _) (digitsVal_decimal _) (by omega)
  have keyText := readStr_eq at_c.left.right.tail noZero
  have at_v := held.right
  have length := value.measured fuel _ at_v.left (by omega)
  have bytes := readBytes_eq at_v.left
  have fromValue : ∀ y ∈ v :: pairElems pairs, Value y := by
    intro y mem
    rcases List.mem_cons.mp mem with rfl | mem
    · exact value
    · exact value_of_mem_pairElems keys values mem
  have fromV : buffer.Holds (p + (bencodeStr key).length)
      ((v :: pairElems pairs).flatten ++ 'e'.toUInt8 :: rest) := by
    simpa using at_v
  have next := bencNext_step fuel fromValue fromV (by omega)
  have printed : printInt (toInt key.length) ++ literal ":" ++ key = bencodeStr key :=
    printStr_of_le short
  simp only [savePair, header, keyText, deref, length, bytes, next, printed, bind, Except.bind,
    pure, Except.pure]

theorem saveRest_eq (pairs : List (List UInt8 × List UInt8)) (plain : PlainKeys pairs)
    (values : ∀ pair ∈ pairs, Value pair.2) {rest : List UInt8}
    (held : buffer.Holds p ((pairElems (printed pairs)).flatten ++ 'e'.toUInt8 :: rest))
    (enough : 2 * (pairElems (printed pairs)).flatten.length ≤ fuel) (bound : Nat)
    (turns : pairs.length < bound) :
    saveRest buffer fuel bound (startOf p (pairElems (printed pairs))) =
      .ok (pairElems (printed pairs)).flatten := by
  induction pairs generalizing p bound with
  | nil =>
      obtain ⟨bound, rfl⟩ := Nat.exists_eq_add_one_of_ne_zero (show bound ≠ 0 by omega)
      rfl
  | cons pair pairs ih =>
      obtain ⟨key, v⟩ := pair
      obtain ⟨bound, rfl⟩ := Nat.exists_eq_add_one_of_ne_zero (show bound ≠ 0 by omega)
      obtain ⟨noZero, short⟩ : 0 ∉ key ∧ key.length ≤ INT_MAX := plain (key, v) List.mem_cons_self
      have value : Value v := values (key, v) List.mem_cons_self
      have later : ∀ pair ∈ pairs, Value pair.2 :=
        fun pair mem => values pair (List.mem_cons_of_mem _ mem)
      have at_k : buffer.Holds p (bencodeStr key ++ (v ++
          ((pairElems (printed pairs)).flatten ++ 'e'.toUInt8 :: rest))) := by
        simpa [printed] using held
      have lengths : (pairElems (printed ((key, v) :: pairs))).flatten.length =
          (bencodeStr key ++ v).length + (pairElems (printed pairs)).flatten.length := by
        simp [printed, Nat.add_assoc]
      have first : savePair buffer fuel p = _ := savePair_eq noZero short value
        (str_of_mem_printed pairs) (value_of_mem_printed later) at_k (by omega)
      have others := ih (fun pair mem => plain pair (List.mem_cons_of_mem _ mem)) later
        at_k.right.right (by omega) bound (Nat.lt_of_succ_lt_succ turns)
      have start : startOf p (pairElems (printed ((key, v) :: pairs))) = some p := rfl
      rw [start, saveRest, first]
      simp only [bind, Except.bind, others, pure, Except.pure]
      simp [printed]

end

theorem length_pairElems {α : Type} (pairs : List (α × α)) :
    (pairElems pairs).length = 2 * pairs.length := by
  simp [pairElems, List.length_flatMap, Nat.mul_comm]

theorem mergePairs_none (dct1 dct2 : Buffer) (fuel bound : Nat) (k2 : Option Nat) :
    mergePairs dct1 dct2 fuel (bound + 1) none k2 = saveRest dct2 fuel bound k2 := by
  cases k2 <;> rfl

/-- A dictionary with plain keys that replaces the pairs of an empty one is
written as it is. -/
theorem dctSubstSave_eq {dct1 dct2 : Buffer} (pairs : List (List UInt8 × List UInt8))
    (plain : PlainKeys pairs) (values : ∀ pair ∈ pairs, Value pair.2)
    (empty : dct1.bytes = ['d'.toUInt8, 'e'.toUInt8, 0])
    (text : dct2.bytes = container 'd'.toUInt8 (pairElems (printed pairs)) ++ [0]) :
    dctSubstSave dct1 dct2 = .ok (container 'd'.toUInt8 (pairElems (printed pairs))) := by
  have at_de := dct1.holds_base
  rw [empty] at at_de
  have noKey : bencFirst dct1 dct1.base = .ok none := bencFirst_eq (.inl rfl) at_de
  have at_text := dct2.holds_base
  rw [text] at at_text
  have elemValues : ∀ x ∈ pairElems (printed pairs), Value x := fun x mem =>
    value_of_mem_pairElems (str_of_mem_printed pairs) (value_of_mem_printed values) mem
  have firstKey := bencFirst_container (.inl rfl) elemValues at_text.left
  have dictAt : dct2.Holds dct2.base ('d'.toUInt8 :: ((pairElems (printed pairs)).flatten ++
      'e'.toUInt8 :: [])) := at_text.left
  have count := length_le_flatten elemValues
  have twice : (pairElems (printed pairs)).length = 2 * pairs.length := by
    rw [length_pairElems, printed, List.length_map]
  have size : dct2.bytes.length = (pairElems (printed pairs)).flatten.length + 3 := by
    rw [text, List.length_append, length_container]
    rfl
  obtain ⟨fuel, fuelEq⟩ : ∃ fuel, turns dct1 + turns dct2 = fuel + 1 :=
    Nat.exists_eq_add_one_of_ne_zero (by unfold turns; omega)
  have copied : saveRest dct2 (fuel + 1) fuel _ = _ :=
    saveRest_eq pairs plain values dictAt.tail (by unfold turns at fuelEq; omega) fuel
      (by unfold turns at fuelEq; omega)
  rw [dctSubstSave, noKey, Exec.bind_ok, firstKey, Exec.bind_ok]
  simp only [fuelEq, mergePairs_none, copied, Exec.bind_ok, Exec.pure_eq, container]
  rfl

/-- The bytes that a string takes in the file, but for the colon. -/
def strWidth (s : CString) : Nat := (decimal s.bytes.length).length + s.bytes.length

/-- The length of the file: its format, the digits of the numbers, and the
strings with the digits of their lengths. -/
def savedLength (tl : Tlib) (name dir label : CString) : Nat :=
  101 + (printInt tl.contentHave.toInt).length + (printInt tl.contentSize.toInt).length +
    (printInt tl.totDown.toInt64.toInt).length + (printInt tl.totUp.toInt64.toInt).length +
    strWidth name + strWidth dir + strWidth label

theorem length_keys :
    (bencodeStr (literal "info")).length = 6 ∧
      (bencodeStr (literal "content have")).length = 15 ∧
      (bencodeStr (literal "content size")).length = 15 ∧
      (bencodeStr (literal "dir")).length = 5 ∧
      (bencodeStr (literal "name")).length = 6 ∧
      (bencodeStr (literal "label")).length = 7 ∧
      (bencodeStr (literal "total download")).length = 17 ∧
      (bencodeStr (literal "total upload")).length = 15 := by
  decide +kernel

theorem length_infoFile (tl : Tlib) (name dir label : CString) :
    (infoFile tl name dir label).length = savedLength tl name dir label := by
  obtain ⟨infoKey, haveKey, sizeKey, dirKey, nameKey, labelKey, downKey, upKey⟩ := length_keys
  simp only [infoFile, infoDict, infoMembers, printed, List.map_cons, List.map_nil,
    pairElems_cons, pairElems_nil, length_container, List.flatten_cons, List.flatten_nil,
    List.length_append, List.length_nil, infoKey, haveKey, sizeKey, dirKey, nameKey, labelKey,
    downKey, upKey, length_bencodeInt, length_bencodeStr, savedLength, strWidth]
  omega

/-- The text holds every string, whatever is printed for its length. -/
theorem length_le_infoText {tl : Tlib} {name dir label : CString} {text : List UInt8}
    (hasName : tl.name = some name) (hasDir : tl.dir = some dir) (hasLabel : tl.label = some label)
    (textEq : infoText tl = .ok text) :
    name.bytes.length ≤ text.length ∧ dir.bytes.length ≤ text.length ∧
      label.bytes.length ≤ text.length := by
  rw [infoText, hasName, hasDir, hasLabel] at textEq
  simp only [derefStr, Exec.pure_eq, Exec.bind_ok] at textEq
  cases textEq
  simp only [List.length_append, printStr]
  omega

theorem present_of_infoText {tl : Tlib} {text : List UInt8} (textEq : infoText tl = .ok text) :
    ∃ name dir label, tl.name = some name ∧ tl.dir = some dir ∧ tl.label = some label := by
  have present : ∀ {s : Option CString} {bytes : List UInt8}, derefStr s = .ok bytes →
      ∃ str, s = some str := by
    intro s bytes followed
    cases s with
    | none => cases followed
    | some str => exact ⟨str, rfl⟩
  obtain ⟨dir, dirEq, textEq⟩ := Exec.bind_eq_ok.mp textEq
  obtain ⟨name, nameEq, textEq⟩ := Exec.bind_eq_ok.mp textEq
  obtain ⟨label, labelEq, -⟩ := Exec.bind_eq_ok.mp textEq
  obtain ⟨dirStr, hasDir⟩ := present dirEq
  obtain ⟨nameStr, hasName⟩ := present nameEq
  obtain ⟨labelStr, hasLabel⟩ := present labelEq
  exact ⟨nameStr, dirStr, labelStr, hasName, hasDir, hasLabel⟩

theorem iobufPrint_eq_ok {iob : Place (2 ^ 31)} {text : List UInt8} {buf : Buffer}
    (printed : iobufPrint iob text = .ok buf) :
    text.length ≤ INT_MAX ∧ buf.bytes = text ++ [0] := by
  unfold iobufPrint at printed
  split at printed
  · rename_i room
    cases printed
    rw [List.length_append, List.length_singleton] at room
    exact ⟨Nat.le_of_succ_le_succ room, rfl⟩
  · cases printed

theorem infoKey_plain {v : List UInt8} : PlainKeys [(literal "info", v)] := by
  intro pair mem
  rw [List.mem_singleton.mp mem]
  exact (by decide : 0 ∉ literal "info" ∧ (literal "info").length ≤ INT_MAX)

/-- `save_info` succeeds when every string is present and the whole text has a
length that an `int` can say. -/
theorem saveInfo_eq_ok_iff (de : Place 3) (iob : Place (2 ^ 31)) (tl : Tlib) (file : List UInt8) :
    saveInfo de iob tl = .ok file ↔
      ∃ name dir label, tl.name = some name ∧ tl.dir = some dir ∧ tl.label = some label ∧
        savedLength tl name dir label ≤ INT_MAX ∧ file = infoFile tl name dir label := by
  constructor
  · intro saved
    obtain ⟨text, textEq, saved⟩ := Exec.bind_eq_ok.mp saved
    obtain ⟨buf, bufEq, copied⟩ := Exec.bind_eq_ok.mp saved
    obtain ⟨name, dir, label, hasName, hasDir, hasLabel⟩ := present_of_infoText textEq
    obtain ⟨nameLe, dirLe, labelLe⟩ := length_le_infoText hasName hasDir hasLabel textEq
    obtain ⟨short, bytesEq⟩ := iobufPrint_eq_ok bufEq
    have sameText := infoText_eq hasName hasDir hasLabel (by omega) (by omega) (by omega)
    rw [textEq] at sameText
    cases sameText
    have written : dctSubstSave (de.holding ['d'.toUInt8, 'e'.toUInt8, 0] (Nat.le_refl 3)) buf =
        .ok (infoFile tl name dir label) :=
      dctSubstSave_eq [(literal "info", infoDict tl name dir label)]
      infoKey_plain (value_infoFile tl name dir label) rfl bytesEq
    rw [written] at copied
    cases copied
    rw [length_infoFile] at short
    exact ⟨name, dir, label, hasName, hasDir, hasLabel, short, rfl⟩
  · rintro ⟨name, dir, label, hasName, hasDir, hasLabel, short, rfl⟩
    have nameLe : name.bytes.length ≤ savedLength tl name dir label := by
      unfold savedLength strWidth
      omega
    have dirLe : dir.bytes.length ≤ savedLength tl name dir label := by
      unfold savedLength strWidth
      omega
    have labelLe : label.bytes.length ≤ savedLength tl name dir label := by
      unfold savedLength strWidth
      omega
    have text := infoText_eq hasName hasDir hasLabel (by omega) (by omega) (by omega)
    rw [← length_infoFile] at short
    have room : (infoFile tl name dir label ++ [0]).length ≤ 2 ^ 31 := by
      rw [List.length_append]
      exact Nat.add_le_add_right short 1
    rw [saveInfo, text, Exec.bind_ok, iobufPrint, dif_pos room, Exec.bind_ok]
    exact dctSubstSave_eq [(literal "info", infoDict tl name dir label)] infoKey_plain
      (value_infoFile tl name dir label) rfl rfl

/-! ## Reading back -/

theorem find_printed (key : List UInt8) (pairs : List (List UInt8 × List UInt8)) :
    ((printed pairs).find? fun pair => strBytes pair.1 = key) =
      (pairs.find? fun pair => pair.1 = key).map fun pair => (bencodeStr pair.1, pair.2) := by
  simp only [printed, List.find?_map, Function.comp_def, strBytes_bencodeStr]

section

variable {buf : Buffer} {tl : Tlib} {name dir label : CString}
  (file : buf.bytes = infoFile tl name dir label)

include file

/-- The whole file is accepted, and its dictionary `info` is found. -/
theorem info_found :
    bencValidate buf (turns buf) = .ok 0 ∧
      ∃ info, bencDgetDct buf (turns buf) buf.base (literal "info") = .ok (some info) ∧
        buf.Holds info (infoDict tl name dir label) ∧
        2 * (infoDict tl name dir label).length ≤ turns buf := by
  have value : Value buf.bytes := by
    rw [file]
    exact value_printed (value_infoFile tl name dir label)
  have at_base := buf.holds_base
  rw [file] at at_base
  have enough : 2 * (infoFile tl name dir label).length ≤ turns buf := by
    rw [← file, turns]
    omega
  refine ⟨bencValidate_of_value value (by unfold turns; omega), ?_⟩
  exact bencDgetDct_found _ (by decide) (str_of_mem_printed _)
    (value_of_mem_printed (value_infoFile tl name dir label)) at_base enough
    (by rw [find_printed]; rfl)

theorem validInfo_eq :
    validInfo buf = .ok (decide (name.bytes ≠ [] ∧ dir.bytes ≠ [] ∧
      dir.bytes.length < PATH_MAX)) := by
  obtain ⟨valid, info, infoEq, at_info, enough⟩ := info_found file
  have keys := str_of_mem_printed (infoMembers tl name dir label)
  have values := value_of_mem_printed (value_infoDict tl name dir label)
  obtain ⟨q, nameEq, -⟩ := bencDgetMem_found (literal "name") (by decide) keys values
    at_info enough (by rw [find_printed]; rfl)
  obtain ⟨r, dirEq, -⟩ := bencDgetMem_found (literal "dir") (by decide) keys values
    at_info enough (by rw [find_printed]; rfl)
  have nameValid : validStr buf info (literal "name") none =
      .ok (decide (name.bytes ≠ [])) := by
    simp [validStr, nameEq, Exec.bind_ok, Exec.pure_eq]
  have dirValid : validStr buf info (literal "dir") (some PATH_MAX) =
      .ok (decide (dir.bytes ≠ [] ∧ dir.bytes.length < PATH_MAX)) := by
    simp [validStr, dirEq, Exec.bind_ok, Exec.pure_eq]
  simp only [validInfo, valid, infoEq, nameValid, dirValid, Exec.bind_ok, Exec.pure_eq]
  by_cases empty : name.bytes = []
  · simp [empty]
  · simp [empty]

theorem takeInfo_eq (hasName : tl.name = some name) (hasDir : tl.dir = some dir)
    (hasLabel : tl.label = some label) : takeInfo buf = .ok tl := by
  obtain ⟨-, info, infoEq, at_info, enough⟩ := info_found file
  have keys := str_of_mem_printed (infoMembers tl name dir label)
  have values := value_of_mem_printed (value_infoDict tl name dir label)
  have nameEq := bencDgetStr_found (literal "name") (by decide) keys values at_info enough
    (by rw [find_printed]; rfl)
  have labelEq := bencDgetStr_found (literal "label") (by decide) keys values at_info enough
    (by rw [find_printed]; rfl)
  have dirEq := bencDgetStr_found (literal "dir") (by decide) keys values at_info enough
    (by rw [find_printed]; rfl)
  have upEq := bencDgetInt_found (literal "total upload") (by decide) keys values at_info
    enough (Int64.le_toInt _) (Int64.toInt_le _) (by rw [find_printed]; rfl)
  have downEq := bencDgetInt_found (literal "total download") (by decide) keys values at_info
    enough (Int64.le_toInt _) (Int64.toInt_le _) (by rw [find_printed]; rfl)
  have sizeEq := bencDgetInt_found (literal "content size") (by decide) keys values at_info
    enough (Int64.le_toInt _) (Int64.toInt_le _) (by rw [find_printed]; rfl)
  have haveEq := bencDgetInt_found (literal "content have") (by decide) keys values at_info
    enough (Int64.le_toInt _) (Int64.toInt_le _) (by rw [find_printed]; rfl)
  simp only [takeInfo, infoEq, deref, nameEq, labelEq, dirEq, upEq, downEq, sizeEq, haveEq,
    Exec.bind_ok, Exec.pure_eq, Option.map_some, CString.ofBytes_bytes, Int64.ofInt_toInt,
    UInt64.toUInt64_toInt64]
  cases tl
  simp_all

end

/-- Every string is there, the name and the directory are not empty, the
directory is shorter than a path may be, and the file fits the reader's
array. -/
def Restorable (tl : Tlib) : Prop :=
  ∃ name dir label, tl.name = some name ∧ tl.dir = some dir ∧ tl.label = some label ∧
    name.bytes ≠ [] ∧ dir.bytes ≠ [] ∧ dir.bytes.length < PATH_MAX ∧
    savedLength tl name dir label ≤ 2 ^ 14

theorem loadInfo_infoFile (buf : Place (2 ^ 14)) {tl : Tlib} {name dir label : CString}
    (hasName : tl.name = some name) (hasDir : tl.dir = some dir) (hasLabel : tl.label = some label) :
    loadInfo buf (infoFile tl name dir label) =
      .ok (if savedLength tl name dir label ≤ 2 ^ 14 ∧ name.bytes ≠ [] ∧ dir.bytes ≠ [] ∧
          dir.bytes.length < PATH_MAX then tl else tlibCreate) := by
  by_cases room : savedLength tl name dir label ≤ 2 ^ 14
  · have fits : (infoFile tl name dir label).length ≤ 2 ^ 14 := by rwa [length_infoFile]
    have valid : validInfo (buf.holding _ fits) = _ := validInfo_eq rfl
    have taken : takeInfo (buf.holding _ fits) = _ := takeInfo_eq rfl hasName hasDir hasLabel
    rw [loadInfo, dif_pos fits]
    simp only [valid, taken, Exec.bind_ok, room, true_and]
    by_cases strings : name.bytes ≠ [] ∧ dir.bytes ≠ [] ∧ dir.bytes.length < PATH_MAX
    · rw [decide_eq_true strings, if_pos rfl, if_pos strings]
    · rw [decide_eq_false strings, if_neg Bool.false_ne_true, if_neg strings]
      rfl
  · have tooLong : ¬ (infoFile tl name dir label).length ≤ 2 ^ 14 := by rwa [length_infoFile]
    rw [loadInfo, dif_neg tooLong, if_neg fun all => room all.1]
    rfl

/-- The exact condition under which an entry survives a restart. -/
theorem survives_iff (de : Place 3) (iob : Place (2 ^ 31)) (buf : Place (2 ^ 14)) (tl : Tlib) :
    Survives de iob buf tl ↔ Restorable tl := by
  constructor
  · rintro ⟨file, saved, loaded⟩
    obtain ⟨name, dir, label, hasName, hasDir, hasLabel, -, rfl⟩ :=
      (saveInfo_eq_ok_iff de iob tl file).mp saved
    rw [loadInfo_infoFile buf hasName hasDir hasLabel] at loaded
    split at loaded
    · rename_i restored
      obtain ⟨room, nameOk, dirOk, dirShort⟩ := restored
      exact ⟨name, dir, label, hasName, hasDir, hasLabel, nameOk, dirOk, dirShort, room⟩
    · -- an entry that was not filled has no name
      cases loaded
      cases hasName
  · rintro ⟨name, dir, label, hasName, hasDir, hasLabel, nameOk, dirOk, dirShort, room⟩
    refine ⟨infoFile tl name dir label, ?_, ?_⟩
    · refine (saveInfo_eq_ok_iff de iob tl _).mpr
        ⟨name, dir, label, hasName, hasDir, hasLabel, ?_, rfl⟩
      exact Nat.le_trans room (by decide)
    · rw [loadInfo_infoFile buf hasName hasDir hasLabel,
        if_pos ⟨room, nameOk, dirOk, dirShort⟩]

/-- The entry of a torrent that was added to `/c` under the name `n`, without a
label. -/
def unlabelled : Tlib :=
  { tlibCreate with
    name := some ⟨literal "n", by decide⟩
    dir := some ⟨literal "/c", by decide⟩
    contentSize := 10 }

theorem tlibAdd_unlabelled : tlibAdd twoFiles 200 ⟨literal "/c", by decide⟩
    (some ⟨literal "n", by decide⟩) none = .ok (some unlabelled) := by
  decide +kernel

/-- Not every entry survives: the label of one that has none is followed
nevertheless. -/
theorem not_survives :
    Produced unlabelled ∧ ∀ (de : Place 3) (iob : Place (2 ^ 31)) (buf : Place (2 ^ 14)),
      saveInfo de iob unlabelled = .error .nullDeref ∧ ¬ Survives de iob buf unlabelled := by
  refine ⟨.added (by decide) tlibAdd_unlabelled, fun de iob buf => ⟨rfl, ?_⟩⟩
  rintro ⟨file, saved, -⟩
  cases saved

end Btpd.Info
