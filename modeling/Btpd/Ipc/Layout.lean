import Btpd.Ipc.Client
import Btpd.Info.Survival

/-!
# The layout of requests and replies

What `btpd_tget` and `cmd_tget` print are values of the grammar: a list with the name of the
command and a dictionary, and a dictionary with a list of numbers and of lists, in which every
key takes up two elements.
-/

namespace Btpd.Ipc

open Benc Metainfo
open Info (INT_MAX)

/-! ## Answers -/

/-- The element that holds the value of an answer. -/
def Answer.value : Answer → List UInt8
  | .err code => bencodeInt code.toInt
  | .num n => bencodeInt n
  | .str bytes => bencodeStr bytes
  | .bin bytes => bencodeStr bytes

/-- The two elements of an answer. -/
def Answer.elems (ans : Answer) : List (List UInt8) := [bencodeInt ans.type.toInt, ans.value]

/-- Every number that is written is a `long long`, and every length an `int`. -/
def Answer.Sound : Answer → Prop
  | .err _ => True
  | .num n => LLONG_MIN ≤ n ∧ n ≤ LLONG_MAX
  | .str bytes => bytes.length + 100 ≤ INT_MAX
  | .bin bytes => bytes.length = 20

theorem sound_num_of_nat {n : Nat} (small : n < 2 ^ 63) : (Answer.num n).Sound := by
  constructor
  · unfold LLONG_MIN
    omega
  · unfold LLONG_MAX
    omega

theorem sound_num_of_uint32 (n : UInt32) : (Answer.num n.toNat).Sound := by
  have small := n.toNat_lt
  apply sound_num_of_nat
  omega

theorem sound_num_of_int64 (n : Int64) : (Answer.num n.toInt).Sound :=
  ⟨Int64.le_toInt n, Int.le_of_lt_add_one n.toInt_lt⟩

theorem sound_num_of_int32 (n : Int32) : (Answer.num n.toInt).Sound := by
  have low := n.le_toInt
  have high := n.toInt_lt
  constructor
  · unfold LLONG_MIN
    omega
  · unfold LLONG_MAX
    omega

theorem sound_stringAns {s : Option Info.CString}
    (short : ∀ str, s = some str → str.bytes.length + 100 ≤ INT_MAX) : (stringAns s).Sound := by
  cases s with
  | none => trivial
  | some str => exact short str rfl

theorem rate_lt (rate : UInt64) : (rate / RATEHISTORY).toNat < 2 ^ 63 := by
  have small := rate.toNat_lt
  rw [UInt64.toNat_div, show RATEHISTORY.toNat = 20 from rfl]
  omega

theorem pcseen_lt (tp : Torrent) : pcseen tp < 2 ^ 63 := by
  have pieces := tp.npieces.toNat_lt
  have counted : pcseen tp ≤ tp.npieces.toNat :=
    Nat.le_trans List.countP_le_length (List.length_take_le _ _)
  omega

theorem tstate_bounds (tp : Option Torrent) : (Answer.num (tstate tp).toInt).Sound := by
  cases tstate tp <;> exact ⟨by decide, by decide⟩

/-- A number that is read from the torrent, when it is active. -/
theorem sound_num_of_tp {idle : Int} {read : Torrent → Int} (soundIdle : (Answer.num idle).Sound)
    (soundRead : ∀ tp, (Answer.num (read tp)).Sound) (tp : Option Torrent) :
    (Answer.num (match tp with | none => idle | some tp => read tp)).Sound := by
  cases tp with
  | none => exact soundIdle
  | some tp => exact soundRead tp

/-- Whatever the state of a torrent, the answer for a key can be printed and read. -/
theorem sound_tlibAns (tl : Tlib) (val : Option IpcTval) : (tlibAns tl val).Sound := by
  have zero : (Answer.num 0).Sound := sound_num_of_nat (by decide : 0 < 2 ^ 63)
  cases val with
  | none => trivial
  | some val =>
      cases val with
      | cgot =>
          exact sound_num_of_tp (sound_num_of_int64 _) (fun tp => sound_num_of_int64 _) tl.tp
      | csize => exact sound_num_of_int64 tl.contentSize
      | dir =>
          apply sound_stringAns
          exact fun str is => tl.printed str (by simp [is])
      | name =>
          apply sound_stringAns
          exact fun str is => tl.printed str (by simp [is])
      | label =>
          apply sound_stringAns
          exact fun str is => tl.printed str (by simp [is])
      | num => exact sound_num_of_uint32 tl.num
      | ihash => exact tl.length_hash
      | pcgot =>
          rw [tlibAns]
          split
          · trivial
          · exact sound_num_of_uint32 _
      | pccount =>
          rw [tlibAns]
          split
          · trivial
          · exact sound_num_of_uint32 _
      | pcount => exact sound_num_of_tp zero (fun tp => sound_num_of_uint32 tp.npeers) tl.tp
      | pcseen => exact sound_num_of_tp zero (fun tp => sound_num_of_nat (pcseen_lt tp)) tl.tp
      | ratedwn =>
          exact sound_num_of_tp zero (fun tp => sound_num_of_nat (rate_lt tp.rateDwn)) tl.tp
      | rateup =>
          exact sound_num_of_tp zero (fun tp => sound_num_of_nat (rate_lt tp.rateUp)) tl.tp
      | sessdwn => exact sound_num_of_tp zero (fun tp => sound_num_of_int64 _) tl.tp
      | sessup => exact sound_num_of_tp zero (fun tp => sound_num_of_int64 _) tl.tp
      | state => exact tstate_bounds tl.tp
      | totdwn => exact sound_num_of_int64 _
      | totup => exact sound_num_of_int64 _
      | trerr => exact zero
      | trgood => exact sound_num_of_tp zero (fun tp => sound_num_of_int32 tp.trGoodCount) tl.tp

theorem length_decimal_le {n k : Nat} (small : n < 10 ^ (k + 1)) :
    (decimal n).length ≤ k + 1 := by
  induction k generalizing n with
  | zero =>
      rw [decimal, if_pos (show n < 10 from small)]
      exact Nat.le_refl 1
  | succ k ih =>
      by_cases digit : n < 10
      · rw [decimal, if_pos digit]
        exact Nat.succ_le_succ (Nat.zero_le _)
      · have shorter := ih (show n / 10 < 10 ^ (k + 1) by rw [Nat.pow_succ] at small; omega)
        rw [decimal, if_neg digit, List.length_append, List.length_singleton]
        exact Nat.succ_le_succ shorter

theorem length_bencodeInt_le {n : Int} (low : LLONG_MIN ≤ n) (high : n ≤ LLONG_MAX) :
    (bencodeInt n).length ≤ 22 := by
  have small : (decimal n.natAbs).length ≤ 19 := by
    apply length_decimal_le
    unfold LLONG_MIN at low
    unfold LLONG_MAX at high
    omega
  rw [length_bencodeInt, printInt, List.length_append]
  split
  · rw [List.length_singleton]
    omega
  · rw [List.length_nil]
    omega

theorem value_value (ans : Answer) : Value ans.value := by
  cases ans with
  | err code => exact value_bencodeInt code.toInt
  | num n => exact value_bencodeInt n
  | str bytes => exact .str (str_bencodeStr bytes)
  | bin bytes => exact .str (str_bencodeStr bytes)

theorem values_elems (ans : Answer) : ∀ x ∈ ans.elems, Value x := by
  rw [Answer.elems, List.forall_mem_cons, List.forall_mem_singleton]
  exact ⟨value_bencodeInt _, value_value ans⟩

/-- The texts that stand for the lengths and the names in requests and replies. -/
theorem text_parts :
    decimal 20 ++ [':'.toUInt8] = literal "20:" ∧
      (bencodeInt IpcErr.enotent.toInt).length ≤ INT_MAX ∧
      literal "d4:codei0e6:resultl" = 'd'.toUInt8 ::
        (bencodeStr (literal "code") ++ (bencodeInt IpcErr.ok.toInt ++
          (bencodeStr (literal "result") ++ ['l'.toUInt8]))) ∧
      literal "l4:tgetd4:from" = 'l'.toUInt8 ::
        (bencodeStr (literal "tget") ++ 'd'.toUInt8 :: bencodeStr (literal "from")) ∧
      literal "4:keysl" = bencodeStr (literal "keys") ++ ['l'.toUInt8] := by
  decide +kernel

/-- An answer is printed as its two elements. -/
theorem Answer.Sound.text_eq {ans : Answer} (sound : ans.Sound) :
    ans.text = ans.elems.flatten := by
  cases ans with
  | err code => simp [Answer.text, Answer.elems, Answer.type, Answer.value]
  | num n => simp [Answer.text, Answer.elems, Answer.type, Answer.value]
  | str bytes =>
      have short : bytes.length + 100 ≤ INT_MAX := sound
      simp [Answer.text, Answer.elems, Answer.type, Answer.value,
        Info.printStr_of_le (show bytes.length ≤ INT_MAX by omega)]
  | bin bytes =>
      have exactly : bytes.length = 20 := sound
      have header := text_parts.1
      simp [Answer.text, Answer.elems, Answer.type, Answer.value, bencodeStr, exactly, ← header]

theorem length_type_le (t : IpcType) : (bencodeInt t.toInt).length ≤ 3 := by
  cases t <;> decide +kernel

theorem IpcErr.toInt_bounds (e : IpcErr) : 0 ≤ e.toInt ∧ e.toInt < 2 ^ 31 := by
  cases e <;> decide

theorem Answer.Sound.length_text {ans : Answer} (sound : ans.Sound) :
    ans.text.length ≤ INT_MAX := by
  have head := length_type_le ans.type
  rw [sound.text_eq, Answer.elems, List.flatten_cons, List.flatten_cons, List.flatten_nil,
    List.append_nil, List.length_append]
  have room : ans.value.length + 3 ≤ INT_MAX := by
    cases ans with
    | err code =>
        have bounds := code.toInt_bounds
        have short := length_bencodeInt_le (n := code.toInt) (by unfold LLONG_MIN; omega)
          (by unfold LLONG_MAX; omega)
        rw [Answer.value]
        unfold INT_MAX
        omega
    | num n =>
        have short := length_bencodeInt_le sound.1 sound.2
        rw [Answer.value]
        unfold INT_MAX
        omega
    | str bytes =>
        have short : bytes.length + 100 ≤ INT_MAX := sound
        have digits : (decimal bytes.length).length ≤ 10 :=
          length_decimal_le (by unfold INT_MAX at short; omega)
        rw [Answer.value, length_bencodeStr]
        omega
    | bin bytes =>
        have exactly : bytes.length = 20 := sound
        have digits : (decimal bytes.length).length ≤ 10 := length_decimal_le (by omega)
        rw [Answer.value, length_bencodeStr]
        unfold INT_MAX
        omega
  omega

/-! ## Replies -/

/-- The elements of the list of a torrent. -/
def torrentElems (tl : Tlib) (keys : List IpcTval) : List (List UInt8) :=
  keys.flatMap fun key => (tlibAns tl (some key)).elems

/-- The element of the result for a torrent, and for one that does not exist. -/
def object (keys : List IpcTval) : Option Tlib → List UInt8
  | none => bencodeInt IpcErr.enotent.toInt
  | some tl => container 'l'.toUInt8 (torrentElems tl keys)

/-- The pairs of a reply. -/
def replyPairs (keys : List IpcTval) (objs : List (Option Tlib)) :
    List (List UInt8 × List UInt8) :=
  [(bencodeStr (literal "code"), bencodeInt IpcErr.ok.toInt),
    (bencodeStr (literal "result"), container 'l'.toUInt8 (objs.map (object keys)))]

/-- A reply about the given torrents. -/
def reply (keys : List IpcTval) (objs : List (Option Tlib)) : List UInt8 :=
  container 'd'.toUInt8 (pairElems (replyPairs keys objs))

theorem torrentElems_cons (tl : Tlib) (key : IpcTval) (keys : List IpcTval) :
    torrentElems tl (key :: keys) = bencodeInt (tlibAns tl (some key)).type.toInt ::
      (tlibAns tl (some key)).value :: torrentElems tl keys :=
  rfl

theorem values_torrentElems (tl : Tlib) (keys : List IpcTval) :
    ∀ x ∈ torrentElems tl keys, Value x := by
  intro x mem
  obtain ⟨key, -, memElems⟩ := List.mem_flatMap.mp mem
  exact values_elems _ x memElems

theorem value_object (keys : List IpcTval) (tl : Option Tlib) : Value (object keys tl) := by
  cases tl with
  | none => exact value_bencodeInt _
  | some tl => exact .list _ (values_torrentElems tl keys)

theorem writeAns_eq (iob : List UInt8) (tl : Tlib) (val : Option IpcTval) :
    writeAns iob tl val = iob ++ (tlibAns tl val).elems.flatten := by
  have sound := sound_tlibAns tl val
  rw [writeAns, iobufPrint, if_pos sound.length_text, sound.text_eq]

theorem foldl_writeAns (iob : List UInt8) (tl : Tlib) (keys : List IpcTval) :
    (keys.map some).foldl (fun iob val => writeAns iob tl val) iob =
      iob ++ (torrentElems tl keys).flatten := by
  induction keys generalizing iob with
  | nil => simp [torrentElems]
  | cons key keys ih =>
      rw [List.map_cons, List.foldl_cons, ih, writeAns_eq]
      simp [torrentElems]

theorem writeTorrent_eq (iob : List UInt8) (tl : Tlib) (keys : List IpcTval) :
    writeTorrent iob tl (keys.map some) = iob ++ object keys (some tl) := by
  rw [writeTorrent, foldl_writeAns]
  simp [object, container, literal]

/-- A torrent that waits for its end counts as one that does not exist. -/
def present (tl : Option Tlib) : Option Tlib := tl.filter fun tl => !torrentHaunting tl

theorem writeNamed_eq (iob : List UInt8) (tl : Option Tlib) (keys : List IpcTval) :
    writeNamed iob (keys.map some) tl = iob ++ object keys (present tl) := by
  have small := text_parts.2.1
  have missing : iobufPrint iob (bencodeInt IpcErr.enotent.toInt) =
      iob ++ object keys none := by
    rw [iobufPrint, if_pos small, object]
  cases tl with
  | none => exact missing
  | some tl =>
      by_cases haunting : torrentHaunting tl = true
      · have gone : present (some tl) = none := by simp [present, haunting]
        rw [writeNamed, if_pos haunting, gone]
        exact missing
      · have there : present (some tl) = some tl := by simp [present, haunting]
        rw [writeNamed, if_neg haunting, there]
        exact writeTorrent_eq iob tl keys

theorem reply_eq (keys : List IpcTval) (objs : List (Option Tlib)) :
    reply keys objs = literal "d4:codei0e6:resultl" ++ (objs.map (object keys)).flatten ++
      literal "ee" := by
  have opening := text_parts.2.2.1
  have closing : literal "ee" = ['e'.toUInt8, 'e'.toUInt8] := by decide
  rw [opening, closing]
  simp [reply, replyPairs, container]

theorem values_replyPairs (keys : List IpcTval) (objs : List (Option Tlib)) :
    (∀ pair ∈ replyPairs keys objs, Str pair.1) ∧
      ∀ pair ∈ replyPairs keys objs, Value pair.2 := by
  constructor
  · rw [replyPairs, List.forall_mem_cons, List.forall_mem_singleton]
    exact ⟨str_bencodeStr _, str_bencodeStr _⟩
  · rw [replyPairs, List.forall_mem_cons, List.forall_mem_singleton]
    refine ⟨value_bencodeInt _, .list _ ?_⟩
    rw [List.forall_mem_map]
    exact fun tl _ => value_object keys tl

theorem value_reply (keys : List IpcTval) (objs : List (Option Tlib)) :
    Value (reply keys objs) := by
  obtain ⟨strs, values⟩ := values_replyPairs keys objs
  exact .dict _ strs values

theorem find_replyPairs (keys : List IpcTval) (objs : List (Option Tlib)) :
    ((replyPairs keys objs).find? fun pair => strBytes pair.1 = literal "code") =
        some (bencodeStr (literal "code"), bencodeInt IpcErr.ok.toInt) ∧
      ((replyPairs keys objs).find? fun pair => strBytes pair.1 = literal "result") =
        some (bencodeStr (literal "result"),
          container 'l'.toUInt8 (objs.map (object keys))) := by
  have differ : literal "code" ≠ literal "result" := by decide
  simp [replyPairs, differ]

/-! ## Requests -/

/-- The element that names a torrent. -/
def IpcTorrent.elem : IpcTorrent → List UInt8
  | .num n => bencodeInt n.toNat
  | .hash bytes _ => bencodeStr bytes

/-- The element that says which torrents are asked for. -/
def Selection.elem : Selection → List UInt8
  | .wildcard twc => bencodeInt twc.toInt
  | .list tps => container 'l'.toUInt8 (tps.map IpcTorrent.elem)

/-- The pairs of the dictionary in a request. -/
def argsPairs (sel : Selection) (keys : List IpcTval) : List (List UInt8 × List UInt8) :=
  [(bencodeStr (literal "from"), sel.elem),
    (bencodeStr (literal "keys"),
      container 'l'.toUInt8 (keys.map fun key => bencodeInt key.toInt))]

/-- The two elements of a request. -/
def requestElems (sel : Selection) (keys : List IpcTval) : List (List UInt8) :=
  [bencodeStr (literal "tget"), container 'd'.toUInt8 (pairElems (argsPairs sel keys))]

theorem IpcTorrent.text_eq (tp : IpcTorrent) : tp.text = tp.elem := by
  cases tp with
  | num n => rfl
  | hash bytes exactly =>
      have header := text_parts.1
      simp [IpcTorrent.text, IpcTorrent.elem, bencodeStr, exactly, ← header]

theorem btpdTget_eq (sel : Selection) (keys : List IpcTval) :
    btpdTget sel keys = container 'l'.toUInt8 (requestElems sel keys) := by
  obtain ⟨-, -, -, opening, middle⟩ := text_parts
  have openingList : literal "l4:tgetd4:froml" = literal "l4:tgetd4:from" ++ ['l'.toUInt8] := by
    decide
  have one : literal "e" = ['e'.toUInt8] := by decide
  have three : literal "eee" = ['e'.toUInt8, 'e'.toUInt8, 'e'.toUInt8] := by decide
  cases sel with
  | wildcard twc =>
      rw [btpdTget, opening, middle, three]
      simp [requestElems, argsPairs, Selection.elem, container, List.flatMap]
  | list tps =>
      rw [btpdTget, openingList, opening, middle, one, three]
      simp [requestElems, argsPairs, Selection.elem, container, List.flatMap,
        funext IpcTorrent.text_eq]

theorem IpcTorrent.value_elem (tp : IpcTorrent) : Value tp.elem := by
  cases tp with
  | num n => exact value_bencodeInt _
  | hash bytes exactly => exact .str (str_bencodeStr bytes)

theorem values_argsPairs (sel : Selection) (keys : List IpcTval) :
    (∀ pair ∈ argsPairs sel keys, Str pair.1) ∧ ∀ pair ∈ argsPairs sel keys, Value pair.2 := by
  have selector : Value sel.elem := by
    cases sel with
    | wildcard twc => exact value_bencodeInt _
    | list tps =>
        apply Value.list
        rw [List.forall_mem_map]
        exact fun tp _ => tp.value_elem
  constructor
  · rw [argsPairs, List.forall_mem_cons, List.forall_mem_singleton]
    exact ⟨str_bencodeStr _, str_bencodeStr _⟩
  · rw [argsPairs, List.forall_mem_cons, List.forall_mem_singleton]
    refine ⟨selector, .list _ ?_⟩
    rw [List.forall_mem_map]
    exact fun key _ => value_bencodeInt _

theorem find_argsPairs (sel : Selection) (keys : List IpcTval) :
    ((argsPairs sel keys).find? fun pair => strBytes pair.1 = literal "from") =
        some (bencodeStr (literal "from"), sel.elem) ∧
      ((argsPairs sel keys).find? fun pair => strBytes pair.1 = literal "keys") =
        some (bencodeStr (literal "keys"),
          container 'l'.toUInt8 (keys.map fun key => bencodeInt key.toInt)) := by
  have differ : literal "from" ≠ literal "keys" := by decide
  simp [argsPairs, differ]

theorem values_requestElems (sel : Selection) (keys : List IpcTval) :
    ∀ x ∈ requestElems sel keys, Value x := by
  obtain ⟨strs, values⟩ := values_argsPairs sel keys
  rw [requestElems, List.forall_mem_cons, List.forall_mem_singleton]
  exact ⟨.str (str_bencodeStr _), .dict _ strs values⟩

end Btpd.Ipc
