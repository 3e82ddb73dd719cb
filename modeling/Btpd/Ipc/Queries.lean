import Btpd.Ipc.Layout
import Btpd.Benc.Encoding

/-!
# The values that a client gets

A request for some keys of some torrents is answered with one reply, and `tget_common` calls the
callback for each torrent of the request, in order, with what the daemon wrote.
-/

namespace Btpd.Ipc

open Benc Metainfo
open Info (turns INT_MAX)

/-! ## What is reported -/

/-- The torrents that a wildcard selects. -/
def IpcTwc.selects (tl : Tlib) : IpcTwc → Bool
  | .all => true
  | .active => torrentActive tl
  | .inactive => !torrentActive tl

/-- The torrent with a name. -/
def Library.lookup (lib : Library) : IpcTorrent → Option Tlib
  | .num n => lib.tlibByNum n
  | .hash bytes _ => lib.tlibByHash bytes

/-- The torrents that a selection is about, with nothing for a name without a torrent. -/
def Library.reported (lib : Library) : Selection → List (Option Tlib)
  | .wildcard twc =>
      (lib.entries.filter fun tl => !torrentHaunting tl && twc.selects tl).map some
  | .list tps => tps.map fun tp => present (lib.lookup tp)

variable {buffer : Buffer} {fuel p : Nat}

/-! ## The daemon reads the request -/

theorem IpcTval.ofInt_toInt (key : IpcTval) : IpcTval.ofInt key.toInt = some key := by
  cases key <;> rfl

theorem IpcTval.toInt_bounds (key : IpcTval) : 0 ≤ key.toInt ∧ key.toInt < 2 ^ 31 := by
  cases key <;> decide

theorem wildcard_eq (lib : Library) (twc : IpcTwc) :
    wildcard lib twc.toInt =
      lib.entries.filter fun tl => !torrentHaunting tl && twc.selects tl := by
  unfold wildcard
  congr 1
  funext tl
  congr 1
  cases twc with
  | all => rfl
  | active => cases active : torrentActive tl <;> simp only [IpcTwc.selects, active] <;> rfl
  | inactive => cases active : torrentActive tl <;> simp only [IpcTwc.selects, active] <;> rfl

/-- `benc_int` reads a number and steps to the element behind it. -/
theorem bencIntNext_eq {n : Int} (low : LLONG_MIN ≤ n) (high : n ≤ LLONG_MAX) {c : UInt8}
    {rest : List UInt8} (held : buffer.Holds p (bencodeInt n ++ c :: rest))
    (enough : (bencodeInt n).length ≤ fuel) :
    bencIntNext buffer fuel p = .ok (n, nextElem (p + (bencodeInt n).length) c) := by
  have at_i : buffer.Holds p ('i'.toUInt8 :: (printInt n ++ 'e'.toUInt8 :: (c :: rest))) := by
    simpa [bencodeInt] using held
  have size : p + (bencodeInt n).length = p + 1 + (printInt n).length + 1 := by
    rw [length_bencodeInt]
    omega
  rw [length_bencodeInt] at enough
  have number : strtoll buffer fuel (p + 1) = _ :=
    strtoll_printInt low high at_i.tail (by decide) (by omega)
  have closed := at_i.tail.right
  simp only [bencIntNext, bencIsint_int at_i, Exec.bind_ok, if_true, at_i.ptrAdd_one, number,
    closed.read_eq, closed.ptrAdd_one, closed.tail.read_eq, Exec.pure_eq, size, nextElem]

/-- The loop over the keys reads all of them. -/
theorem readOpts_eq (keys : List IpcTval) {rest : List UInt8}
    (held : buffer.Holds p
      ((keys.map fun key => bencodeInt key.toInt).flatten ++ 'e'.toUInt8 :: rest))
    (enough : 2 * (keys.map fun key => bencodeInt key.toInt).flatten.length ≤ fuel) :
    readOpts buffer fuel keys.length (startOf p (keys.map fun key => bencodeInt key.toInt)) =
      .ok (keys.map some) := by
  induction keys generalizing p with
  | nil => rfl
  | cons key keys ih =>
      simp only [List.map_cons, List.flatten_cons, List.length_append] at enough
      have values : ∀ x ∈ keys.map fun key => bencodeInt key.toInt, Value x := by
        rw [List.forall_mem_map]
        exact fun key _ => value_bencodeInt _
      have at_key : buffer.Holds p (bencodeInt key.toInt ++
          ((keys.map fun key => bencodeInt key.toInt).flatten ++ 'e'.toUInt8 :: rest)) := by
        simpa using held
      obtain ⟨c, tail, tailEq, next⟩ :=
        exists_nextElem (p + (bencodeInt key.toInt).length) _ rest values
      have later := ih at_key.right (by omega)
      have bounds := key.toInt_bounds
      rw [tailEq] at at_key
      have number := bencIntNext_eq (by unfold LLONG_MIN; omega) (by unfold LLONG_MAX; omega)
        at_key (show _ ≤ fuel by omega)
      rw [List.map_cons, startOf, List.length_cons, readOpts]
      simp only [deref, Exec.pure_eq, Exec.bind_ok, number, next, later, IpcTval.ofInt_toInt,
        List.map_cons]

theorem toUnsigned_natCast (n : UInt32) : toUnsigned n.toNat = n := by
  have small := n.toNat_lt
  have same : ((n.toNat : Int) % 2 ^ 32).toNat = n.toNat := by omega
  rw [toUnsigned, same, UInt32.ofNat_toNat]

/-- A name in the request finds the torrent that the client means. -/
theorem readName_eq (lib : Library) (tp : IpcTorrent) (held : buffer.Holds p tp.elem)
    (enough : 2 * tp.elem.length ≤ fuel) :
    readName buffer fuel lib p = .ok (some (lib.lookup tp)) := by
  cases tp with
  | num n =>
      have at_n : buffer.Holds p (bencodeInt n.toNat) := held
      have small := n.toNat_lt
      have number := bencInt_int (by unfold LLONG_MIN; omega) (by unfold LLONG_MAX; omega) at_n
        (show (bencodeInt n.toNat).length ≤ fuel by rw [IpcTorrent.elem] at enough; omega)
      have isInt : bencIsint buffer p = .ok true := bencIsint_int at_n
      simp only [readName, isInt, Exec.bind_ok, if_true, number, Exec.pure_eq,
        toUnsigned_natCast, Library.lookup]
  | hash bytes exactly =>
      have at_str : buffer.Holds p (bencodeStr bytes) := held
      rw [IpcTorrent.elem] at enough
      have isStr := bencIsstr_str at_str
      have header : decimal 20 = ['2'.toUInt8, '0'.toUInt8] := by decide +kernel
      have at_digits : buffer.Holds p (['2'.toUInt8, '0'.toUInt8] ++ ':'.toUInt8 :: bytes) := by
        rw [← header, ← exactly]
        exact at_str
      have size : 2 < (bencodeStr bytes).length := by
        rw [length_bencodeStr, exactly]
        omega
      have digits := (isDigits_decimal 20).2
      rw [header] at digits
      have scanned : readDigits buffer fuel p 0 = _ :=
        readDigits_eq 0 at_digits digits isdigit_colon (show 2 < fuel by omega)
      have strlen : strtoul buffer fuel p = .ok (20, p + 2) := by
        rw [strtoul, scanned]
        rfl
      have notInt : bencIsint buffer p = .ok false := by
        have first : buffer.read p = .ok '2'.toUInt8 := at_digits.read_eq
        rw [bencIsint, first]
        rfl
      obtain ⟨q, mem, at_q⟩ : ∃ q, bencMem buffer fuel p = .ok (some (q, bytes.length)) ∧
          buffer.Holds q bytes := bencMem_str at_str (by omega)
      have hash := readBytes_eq at_q
      rw [exactly] at mem hash
      simp only [readName, notInt, isStr, strlen, mem, hash, Exec.bind_ok, Exec.pure_eq,
        Bool.false_eq_true, if_false, if_true, Library.lookup]

theorem foldl_writeTorrent (keys : List IpcTval) (tls : List Tlib) (iob : List UInt8) :
    tls.foldl (fun iob tl => writeTorrent iob tl (keys.map some)) iob =
      iob ++ ((tls.map some).map (object keys)).flatten := by
  induction tls generalizing iob with
  | nil => simp
  | cons tl tls ih =>
      rw [List.foldl_cons, ih, writeTorrent_eq]
      simp

/-- The result is written for the torrents that the selection is about. -/
theorem writeResult_eq (lib : Library) (sel : Selection) (keys : List IpcTval)
    (held : buffer.Holds p sel.elem) (enough : 2 * sel.elem.length ≤ fuel) (iob : List UInt8) :
    writeResult buffer fuel lib (keys.map some) p iob =
      .ok (.text (iob ++ ((lib.reported sel).map (object keys)).flatten ++ literal "ee")) := by
  cases sel with
  | wildcard twc =>
      have at_n : buffer.Holds p (bencodeInt twc.toInt) := held
      have bounds : LLONG_MIN ≤ twc.toInt ∧ twc.toInt ≤ LLONG_MAX := by
        cases twc <;> exact ⟨by decide, by decide⟩
      have number := bencInt_int bounds.1 bounds.2 at_n
        (show (bencodeInt twc.toInt).length ≤ fuel by rw [Selection.elem] at enough; omega)
      have isInt : bencIsint buffer p = .ok true := bencIsint_int at_n
      simp only [writeResult, isInt, Exec.bind_ok, if_true, number, Exec.pure_eq, wildcard_eq,
        foldl_writeTorrent, Library.reported]
  | list tps =>
      -- what the loop has written behind some of the names
      let written := fun seen : List IpcTorrent =>
        iob ++ ((lib.reported (.list seen)).map (object keys)).flatten
      have at_l : buffer.Holds p
          ('l'.toUInt8 :: ((tps.map IpcTorrent.elem).flatten ++ 'e'.toUInt8 :: [])) := held
      have allValues : ∀ x ∈ tps.map IpcTorrent.elem, Value x := by
        rw [List.forall_mem_map]
        exact fun tp _ => tp.value_elem
      have count := length_le_flatten allValues
      rw [Selection.elem, length_container] at enough
      rw [List.length_map] at count
      have isList : bencIslst buffer p = .ok true := by
        rw [bencIslst, at_l.read_eq]
        rfl
      have notInt : bencIsint buffer p = .ok false := by
        rw [bencIsint, at_l.read_eq]
        rfl
      have first := bencFirst_container (.inr rfl) allValues held
      have turn : ∀ seen tp q iob', iob' = written seen → buffer.Holds q (IpcTorrent.elem tp) →
          2 * tp.elem.length ≤ fuel →
          ∃ later, tgetName buffer fuel lib (keys.map some) iob' q = .ok (some later) ∧
            later = written (seen ++ [tp]) := by
        intro seen tp q iob' soFar at_tp fits
        refine ⟨writeNamed iob' (keys.map some) (lib.lookup tp), ?_, ?_⟩
        · rw [tgetName, readName_eq lib tp at_tp fits]
          rfl
        · rw [writeNamed_eq, soFar]
          simp [written, Library.reported]
      obtain ⟨iob', looped, rfl⟩ := bencForeach_keeps (fun seen iob' => iob' = written seen) turn
        tps IpcTorrent.value_elem at_l.tail (show _ ≤ fuel by omega)
        (show tps.length < fuel by omega) [] iob
        (by simp [written, Library.reported])
      simp only [writeResult, notInt, isList, first, looped, Exec.bind_ok, Bool.false_eq_true,
        if_false, if_true]
      rfl

/-- The command writes the reply about the torrents of the selection. -/
theorem cmdTget_eq (lib : Library) (sel : Selection) (keys : List IpcTval)
    (held : buffer.Holds p (container 'd'.toUInt8 (pairElems (argsPairs sel keys))))
    (enough : 2 * (container 'd'.toUInt8 (pairElems (argsPairs sel keys))).length ≤ fuel) :
    cmdTget buffer fuel lib 1 (some p) = .ok (.text (reply keys (lib.reported sel))) := by
  obtain ⟨strs, values⟩ := values_argsPairs sel keys
  obtain ⟨findFrom, findKeys⟩ := find_argsPairs sel keys
  have at_d : buffer.Holds p ('d'.toUInt8 ::
      ((pairElems (argsPairs sel keys)).flatten ++ ['e'.toUInt8])) := held
  have isDict : bencIsdct buffer p = .ok true := by
    rw [bencIsdct, at_d.read_eq]
    rfl
  obtain ⟨frm, anyFrom, at_from, enoughFrom⟩ :=
    bencDgetAny_found (literal "from") (by decide) strs values held enough findFrom
  obtain ⟨lst, anyKeys, at_keys, enoughKeys⟩ :=
    bencDgetAny_found (literal "keys") (by decide) strs values held enough findKeys
  have at_l : buffer.Holds lst ('l'.toUInt8 ::
      ((keys.map fun key => bencodeInt key.toInt).flatten ++ 'e'.toUInt8 :: [])) := at_keys
  have keyValues : ∀ x ∈ keys.map fun key => bencodeInt key.toInt, Value x := by
    rw [List.forall_mem_map]
    exact fun key _ => value_bencodeInt _
  have isList : bencIslst buffer lst = .ok true := by
    rw [bencIslst, at_l.read_eq]
    rfl
  have getKeys : bencDgetLst buffer fuel p (literal "keys") = .ok (some lst) := by
    simp only [bencDgetLst, bencDgetIf, anyKeys, isList, Exec.bind_ok, if_true, Exec.pure_eq]
  have count := bencNelems_container (.inr rfl) keyValues at_keys enoughKeys
  have first := bencFirst_container (.inr rfl) keyValues at_keys
  rw [length_container] at enoughKeys
  have opts := readOpts_eq keys at_l.tail (show _ ≤ fuel by omega)
  rw [List.length_map] at count
  simp only [cmdTget, ne_eq, not_true_eq_false, if_false, deref, isDict, getKeys, count, first,
    opts, anyFrom, Exec.pure_eq, Exec.bind_ok, if_true, writeResult_eq lib sel keys at_from
    enoughFrom]
  rw [reply_eq]

/-! ## The daemon answers -/

/-- The handlers of the commands: that of `tget`, and any others. -/
def cmdTable (lib : Library) (others : Command → Int → Option Nat → Exec Reply) (buffer : Buffer)
    (fuel : Nat) : Command → Int → Option Nat → Exec Reply
  | .tget => cmdTget buffer fuel lib
  | c => others c

theorem findCommand_tget (held : buffer.Holds p (literal "tget")) :
    findCommand buffer p 4 Command.list = .ok (some .tget) := by
  have compared : ∀ name : List UInt8, name.length = 4 → 0 ∉ name →
      strncmpEq buffer p name 4 = .ok (decide (literal "tget" = name)) := by
    intro name four nonzero
    have size : (literal "tget").length = 4 := by decide
    obtain ⟨b, eq, same⟩ := strncmpEq_eq (literal "tget") name held nonzero
    rw [size] at eq same
    rw [eq, ← same, four, decide_eq_true rfl, Bool.and_true]
  have rate := compared (literal "rate") (by decide) (by decide)
  have stop := compared (literal "stop") (by decide) (by decide)
  have tget := compared (literal "tget") (by decide) (by decide)
  rw [decide_eq_false (by decide)] at rate stop
  rw [decide_eq_true rfl] at tget
  have lengths : (literal "add").length = 3 ∧ (literal "del").length = 3 ∧
      (literal "die").length = 3 ∧ (literal "rate").length = 4 ∧ (literal "start").length = 5 ∧
      (literal "start-all").length = 9 ∧ (literal "stop").length = 4 ∧
      (literal "stop-all").length = 8 ∧ (literal "tget").length = 4 := by
    decide
  simp [Command.list, findCommand, Command.name, lengths, rate, stop, tget, Exec.bind_ok,
    Exec.pure_eq]

/-- A request passes the tests of `cli_read_cb`, and is answered. -/
theorem cliReadCb_eq (lib : Library) (others : Command → Int → Option Nat → Exec Reply)
    (sel : Selection) (keys : List IpcTval) {msg : Buffer}
    (request : msg.bytes = btpdTget sel keys) :
    cliReadCb msg (turns msg) (cmdTable lib others msg (turns msg)) =
      .ok (some (.text (reply keys (lib.reported sel)))) := by
  rw [btpdTget_eq] at request
  have values := values_requestElems sel keys
  have value : Value msg.bytes := by
    rw [request]
    exact .list _ values
  have valid := bencValidate_of_value value (show _ ≤ turns msg by unfold turns; omega)
  have at_base := msg.holds_base
  rw [request] at at_base
  have enough : 2 * (container 'l'.toUInt8 (requestElems sel keys)).length ≤ turns msg := by
    rw [← request]
    unfold turns
    omega
  have at_l : msg.Holds msg.base ('l'.toUInt8 ::
      ((requestElems sel keys).flatten ++ 'e'.toUInt8 :: [])) := at_base
  have isList : bencIslst msg msg.base = .ok true := by
    rw [bencIslst, at_l.read_eq]
    rfl
  have first : bencFirst msg msg.base = .ok (some (msg.base + 1)) :=
    bencFirst_container (.inr rfl) values at_base
  have count : bencNelems msg (turns msg) msg.base = .ok 2 :=
    bencNelems_container (.inr rfl) values at_base enough
  have at_cmd : msg.Holds (msg.base + 1) (bencodeStr (literal "tget") ++
      (container 'd'.toUInt8 (pairElems (argsPairs sel keys)) ++ ['e'.toUInt8])) := by
    have at_elems := at_l.tail
    simpa [requestElems] using at_elems
  have isStr := bencIsstr_str at_cmd.left
  rw [length_container, requestElems] at enough
  simp only [List.flatten_cons, List.flatten_nil, List.append_nil, List.length_append] at enough
  have size : 6 = (bencodeStr (literal "tget")).length := by decide +kernel
  have four : (literal "tget").length = 4 := by decide
  have next := bencMemNext_eq (show msg.Holds (msg.base + 1) (decimal (literal "tget").length ++
      ':'.toUInt8 :: literal "tget" ++ 'd'.toUInt8 :: _) from at_cmd) (isDigits_decimal _)
    (digitsVal_decimal _) (show _ < turns msg by
      rw [length_bencodeStr] at size
      omega)
  have found := findCommand_tget at_cmd.left.right.tail
  have answered := cmdTget_eq lib sel keys at_cmd.right.left (show _ ≤ turns msg by omega)
  have notEnd : 'd'.toUInt8 ≠ 'e'.toUInt8 := by decide
  have accepted : accepts msg (turns msg) = .ok true := by
    simp only [accepts, valid, isList, first, isStr, Exec.bind_ok, ne_eq, not_true_eq_false,
      if_false, if_true]
  have one : toInt ((2 : Nat) - 1) = 1 := by decide
  rw [nextElem, if_neg notEnd] at next
  rw [cliReadCb, accepted, Exec.bind_ok, if_pos rfl, cmdDispatch, first, Exec.bind_ok, deref,
    Exec.pure_eq, Exec.bind_ok, next, Exec.bind_ok]
  simp only [four] at found ⊢
  rw [found, Exec.bind_ok]
  simp only [count, Exec.bind_ok, one, cmdTable]
  rw [← four]
  rw [show decimal (literal "tget").length ++ ':'.toUInt8 :: literal "tget" =
    bencodeStr (literal "tget") from rfl, answered]
  rfl

/-! ## The client reads the reply -/

/-- The result for a key is the answer of the daemon: its type, and its number or the bytes that
the reply holds at a pointer. -/
def Tells (buffer : Buffer) (ans : Answer) (res : IpcGetRes) : Prop :=
  res.type = some (toUnsigned ans.type.toInt) ∧
    match ans with
    | .err code => res.v = some (.num code.toInt)
    | .num n => res.v = some (.num n)
    | .str bytes => ∃ q, res.v = some (.str q bytes.length) ∧ buffer.Holds q bytes
    | .bin bytes => ∃ q, res.v = some (.str q bytes.length) ∧ buffer.Holds q bytes

theorem bencInt_type (t : IpcType) (held : buffer.Holds p (bencodeInt t.toInt))
    (enough : (bencodeInt t.toInt).length ≤ fuel) : bencInt buffer fuel p = .ok t.toInt := by
  have bounds : LLONG_MIN ≤ t.toInt ∧ t.toInt ≤ LLONG_MAX := by
    cases t <;> exact ⟨by decide, by decide⟩
  exact bencInt_int bounds.1 bounds.2 held enough

theorem string_types (t : IpcType) (string : t = .str ∨ t = .bin) :
    ¬ (toUnsigned t.toInt = toUnsigned IpcType.err.toInt ∨
      toUnsigned t.toInt = toUnsigned IpcType.num.toInt) := by
  rcases string with rfl | rfl <;> decide

/-- The value behind a type is read as that type says. -/
theorem readVal_eq {ans : Answer} (sound : ans.Sound) (held : buffer.Holds p ans.value)
    (enough : 2 * ans.value.length ≤ fuel) (old : Option IpcVal) :
    ∃ v, readVal buffer fuel (toUnsigned ans.type.toInt) p old = .ok v ∧
      Tells buffer ans ⟨some (toUnsigned ans.type.toInt), v⟩ := by
  cases ans with
  | err code =>
      have at_n : buffer.Holds p (bencodeInt code.toInt) := held
      have bounds := code.toInt_bounds
      rw [Answer.value] at enough
      have number := bencInt_int (by unfold LLONG_MIN; omega) (by unfold LLONG_MAX; omega) at_n
        (show _ ≤ fuel by omega)
      refine ⟨some (.num code.toInt), ?_, rfl, rfl⟩
      rw [readVal, if_pos (.inl rfl), number]
      rfl
  | num n =>
      have at_n : buffer.Holds p (bencodeInt n) := held
      rw [Answer.value] at enough
      have number := bencInt_int sound.1 sound.2 at_n (show _ ≤ fuel by omega)
      refine ⟨some (.num n), ?_, rfl, rfl⟩
      rw [readVal, if_pos (.inr rfl), number]
      rfl
  | str bytes =>
      have at_str : buffer.Holds p (bencodeStr bytes) := held
      rw [Answer.value] at enough
      obtain ⟨q, mem, at_q⟩ := bencMem_str at_str (show _ ≤ fuel by omega)
      refine ⟨some (.str q bytes.length), ?_, rfl, q, rfl, at_q⟩
      rw [readVal, if_neg (string_types (Answer.str bytes).type (.inl rfl)), if_pos (.inl rfl), mem]
      rfl
  | bin bytes =>
      have at_str : buffer.Holds p (bencodeStr bytes) := held
      rw [Answer.value] at enough
      obtain ⟨q, mem, at_q⟩ := bencMem_str at_str (show _ ≤ fuel by omega)
      refine ⟨some (.str q bytes.length), ?_, rfl, q, rfl, at_q⟩
      rw [readVal, if_neg (string_types (Answer.bin bytes).type (.inr rfl)), if_pos (.inr rfl), mem]
      rfl

/-- Before the next key, `v` is set to the value behind the type at `t`, if there is one. -/
theorem nextType_eq (tl : Tlib) (keys : List IpcTval) {rest : List UInt8}
    (held : buffer.Holds p ((torrentElems tl keys).flatten ++ 'e'.toUInt8 :: rest))
    (enough : 2 * (torrentElems tl keys).flatten.length ≤ fuel) {α : Type}
    (later : Option Nat → Option Nat → Exec α) (v : Option Nat) :
    ∃ v', (match startOf p (torrentElems tl keys) with
        | some tp => do
            let v ← bencNext buffer fuel tp
            later (some tp) v
        | none => later none v) = later (startOf p (torrentElems tl keys)) v' ∧
      ∀ key ∈ keys.head?, v' =
        some (p + (bencodeInt (tlibAns tl (some key)).type.toInt).length) := by
  have values := values_torrentElems tl keys
  cases keys with
  | nil => exact ⟨v, rfl, by simp⟩
  | cons key keys =>
      rw [torrentElems_cons] at held values enough ⊢
      simp only [List.flatten_cons, List.length_append] at enough
      have next := bencNext_step fuel values held (by omega)
      refine ⟨some (p + (bencodeInt (tlibAns tl (some key)).type.toInt).length), ?_, ?_⟩
      · simp only [startOf, next, Exec.bind_ok]
      · intro key' same
        cases same
        rfl

/-- The loop over the keys fills in the result of each of them. -/
theorem readKeys_eq (tl : Tlib) (keys : List IpcTval) {rest : List UInt8}
    (held : buffer.Holds p ((torrentElems tl keys).flatten ++ 'e'.toUInt8 :: rest))
    (enough : 2 * (torrentElems tl keys).flatten.length ≤ fuel) (v : Option Nat)
    (atValue : ∀ key ∈ keys.head?, v =
      some (p + (bencodeInt (tlibAns tl (some key)).type.toInt).length))
    (cbres : IpcTval → IpcGetRes) :
    ∃ after, readKeys buffer fuel keys (startOf p (torrentElems tl keys)) v cbres = .ok after ∧
      (∀ key ∈ keys, Tells buffer (tlibAns tl (some key)) (after key)) ∧
      ∀ key ∉ keys, after key = cbres key := by
  induction keys generalizing p v cbres with
  | nil => exact ⟨cbres, rfl, by simp, fun _ _ => rfl⟩
  | cons key keys ih =>
      obtain ⟨ans, ansEq⟩ : ∃ ans, tlibAns tl (some key) = ans := ⟨_, rfl⟩
      have sound := sound_tlibAns tl (some key)
      have atV := atValue key rfl
      rw [ansEq] at sound atV
      rw [torrentElems_cons, ansEq] at held enough ⊢
      simp only [List.flatten_cons, List.length_append] at enough
      have at_type : buffer.Holds p (bencodeInt ans.type.toInt ++ (ans.value ++
          ((torrentElems tl keys).flatten ++ 'e'.toUInt8 :: rest))) := by
        simpa using held
      have fromValue : ∀ x ∈ ans.value :: torrentElems tl keys, Value x := by
        rw [List.forall_mem_cons]
        exact ⟨value_value ans, values_torrentElems tl keys⟩
      have at_value : buffer.Holds (p + (bencodeInt ans.type.toInt).length)
          ((ans.value :: torrentElems tl keys).flatten ++ 'e'.toUInt8 :: rest) := by
        simpa using at_type.right
      have type := bencInt_type ans.type at_type.left (show _ ≤ fuel by omega)
      obtain ⟨val, valEq, told⟩ := readVal_eq sound at_type.right.left
        (show 2 * ans.value.length ≤ fuel by omega) (cbres key).v
      have next := bencNext_step fuel fromValue at_value (show 2 * ans.value.length ≤ fuel by omega)
      obtain ⟨v', step, atValue'⟩ := nextType_eq tl keys at_type.right.right
        (show 2 * (torrentElems tl keys).flatten.length ≤ fuel by omega)
        (fun t v => readKeys buffer fuel keys t v
          (Function.update cbres key ⟨some (toUnsigned ans.type.toInt), val⟩)) v
      obtain ⟨after, read, all, others⟩ := ih at_type.right.right (by omega) v' atValue'
        (Function.update cbres key ⟨some (toUnsigned ans.type.toInt), val⟩)
      refine ⟨after, ?_, ?_, ?_⟩
      · rw [startOf, readKeys, atV]
        simp only [deref, Exec.pure_eq, Exec.bind_ok, type, valEq, next]
        rw [atV] at step
        exact step.trans read
      · rw [List.forall_mem_cons]
        refine ⟨?_, all⟩
        by_cases again : key ∈ keys
        · exact all key again
        · rw [others key again, Function.update_self, ansEq]
          exact told
      · intro key' absent
        rw [List.mem_cons, not_or] at absent
        rw [others key' absent.2, Function.update_of_ne absent.1]

/-- A call of the callback reports a torrent with its value for each key, or that it does not
exist. -/
def Reports (buffer : Buffer) (keys : List IpcTval) : Option Tlib → Callback → Prop
  | none, call => call.objerr = toUnsigned IpcErr.enotent.toInt ∧ call.res = none
  | some tl, call => call.objerr = toUnsigned IpcErr.ok.toInt ∧
      ∃ res, call.res = some res ∧ ∀ key ∈ keys, Tells buffer (tlibAns tl (some key)) (res key)

/-- The calls report the torrents, one each and in their order, and number them. -/
structure Delivers (buffer : Buffer) (keys : List IpcTval) (objs : List (Option Tlib))
    (calls : List Callback) : Prop where
  reports : List.Forall₂ (Reports buffer keys) objs calls
  numbered : calls.map Callback.obji = (List.range calls.length).map fun i : Nat => toInt i

theorem Delivers.snoc {keys : List IpcTval} {objs : List (Option Tlib)} {calls : List Callback}
    (delivered : Delivers buffer keys objs calls) {tl : Option Tlib} {call : Callback}
    (reported : Reports buffer keys tl call) (number : call.obji = toInt calls.length) :
    Delivers buffer keys (objs ++ [tl]) (calls ++ [call]) where
  reports := List.rel_append delivered.reports (.cons reported .nil)
  numbered := by
    rw [List.map_append, delivered.numbered, List.length_append, List.length_singleton,
      List.range_succ, List.map_append, List.map_singleton, List.map_singleton, number]

/-- A turn of the loop over the result is one call. -/
theorem readObject_eq {keys : List IpcTval} (asked : keys ≠ []) (tl : Option Tlib)
    (held : buffer.Holds p (object keys tl)) (enough : 2 * (object keys tl).length ≤ fuel)
    (calls : List Callback) (cbres : IpcTval → IpcGetRes) :
    ∃ call cbres', readObject buffer fuel keys (calls, cbres) p =
        .ok (some (calls ++ [call], cbres')) ∧
      call.obji = toInt calls.length ∧ Reports buffer keys tl call := by
  cases tl with
  | none =>
      have at_n : buffer.Holds p (bencodeInt IpcErr.enotent.toInt) := held
      have bounds := IpcErr.enotent.toInt_bounds
      rw [object] at enough
      have number := bencInt_int (by unfold LLONG_MIN; omega) (by unfold LLONG_MAX; omega) at_n
        (show _ ≤ fuel by omega)
      have isInt : bencIsint buffer p = .ok true := bencIsint_int at_n
      refine ⟨⟨toInt calls.length, toUnsigned IpcErr.enotent.toInt, none⟩, cbres, ?_, rfl, rfl,
        rfl⟩
      simp only [readObject, isInt, number, Exec.bind_ok, Exec.pure_eq, if_true]
  | some tl =>
      rw [object] at held enough
      have at_l : buffer.Holds p ('l'.toUInt8 ::
          ((torrentElems tl keys).flatten ++ 'e'.toUInt8 :: [])) := held
      have values := values_torrentElems tl keys
      have notInt : bencIsint buffer p = .ok false := by
        rw [bencIsint, at_l.read_eq]
        rfl
      have first := bencFirst_container (.inr rfl) values held
      obtain ⟨key, keys', rfl⟩ := List.exists_cons_of_ne_nil asked
      have elemsEq := torrentElems_cons tl key keys'
      rw [length_container] at enough
      have enoughKeys : 2 * (torrentElems tl (key :: keys')).flatten.length ≤ fuel := by omega
      have inner := at_l.tail
      rw [elemsEq] at inner values first enough
      simp only [List.flatten_cons, List.length_append] at enough
      have second := bencNext_step fuel values inner (by omega)
      obtain ⟨cbres', read, told, -⟩ := readKeys_eq tl (key :: keys') at_l.tail enoughKeys
        (some (p + 1 + (bencodeInt (tlibAns tl (some key)).type.toInt).length))
        (by rintro key' ⟨⟩; rfl) cbres
      rw [elemsEq, startOf] at read
      refine ⟨⟨toInt calls.length, toUnsigned IpcErr.ok.toInt, some cbres'⟩, cbres', ?_, rfl, rfl,
        cbres', rfl, told⟩
      simp only [readObject, notInt, first, startOf, deref, second, read, Exec.bind_ok,
        Exec.pure_eq, Bool.false_eq_true, if_false]

/-- `tget_common` reads every reply of the daemon. -/
theorem tgetCommon_eq {keys : List IpcTval} (asked : keys ≠ []) (objs : List (Option Tlib))
    (held : buffer.Holds p (reply keys objs)) (enough : 2 * (reply keys objs).length ≤ fuel) :
    ∃ calls, tgetCommon buffer fuel p keys = .ok (IpcErr.ok.toInt, calls) ∧
      Delivers buffer keys objs calls := by
  obtain ⟨strs, values⟩ := values_replyPairs keys objs
  obtain ⟨findCode, findResult⟩ := find_replyPairs keys objs
  have code := bencDgetInt_found (literal "code") (by decide) strs values held enough
    (by decide : LLONG_MIN ≤ IpcErr.ok.toInt) (by decide) findCode
  obtain ⟨lst, any, at_lst, enoughLst⟩ :=
    bencDgetAny_found (literal "result") (by decide) strs values held enough findResult
  have at_l : buffer.Holds lst ('l'.toUInt8 ::
      ((objs.map (object keys)).flatten ++ 'e'.toUInt8 :: [])) := at_lst
  have allValues : ∀ x ∈ objs.map (object keys), Value x := by
    rw [List.forall_mem_map]
    exact fun tl _ => value_object keys tl
  have count := length_le_flatten allValues
  rw [List.length_map] at count
  rw [length_container] at enoughLst
  have isList : bencIslst buffer lst = .ok true := by
    rw [bencIslst, at_l.read_eq]
    rfl
  have result : bencDgetLst buffer fuel p (literal "result") = .ok (some lst) := by
    simp only [bencDgetLst, bencDgetIf, any, isList, Exec.bind_ok, if_true, Exec.pure_eq]
  have first := bencFirst_container (.inr rfl) allValues at_lst
  have turn : ∀ seen tl q (s : List Callback × (IpcTval → IpcGetRes)),
      Delivers buffer keys seen s.1 → buffer.Holds q (object keys tl) →
      2 * (object keys tl).length ≤ fuel →
      ∃ s', readObject buffer fuel keys s q = .ok (some s') ∧
        Delivers buffer keys (seen ++ [tl]) s'.1 := by
    rintro seen tl q ⟨calls, cbres⟩ soFar at_tl fits
    obtain ⟨call, cbres', read, number, reported⟩ :=
      readObject_eq asked tl at_tl fits calls cbres
    exact ⟨(calls ++ [call], cbres'), read, soFar.snoc reported number⟩
  obtain ⟨⟨calls, cbres⟩, looped, delivered⟩ := bencForeach_keeps
    (fun seen s => Delivers buffer keys seen s.1) turn objs (value_object keys) at_l.tail
    (show _ ≤ fuel by omega) (show objs.length < fuel by omega) []
    ([], fun _ => ⟨none, none⟩) ⟨.nil, rfl⟩
  refine ⟨calls, ?_, delivered⟩
  have ok : toInt IpcErr.ok.toInt = 0 := by decide
  simp only [tgetCommon, code, ok, result, first, looped, deref, Exec.bind_ok, Exec.pure_eq,
    ne_eq, not_true_eq_false, if_false]

/-- Whatever the library holds, a client that asks for some keys gets, for each torrent that it
asks about and in their order, one call of its callback: with exactly the type and the value that
the daemon wrote for each key, or with the error of a torrent that does not exist. -/
theorem tget_delivers (lib : Library) (others : Command → Int → Option Nat → Exec Reply)
    (sel : Selection) (keys : List IpcTval) (asked : keys ≠ []) (msg : Buffer)
    (request : msg.bytes = btpdTget sel keys) :
    ∃ iob, cliReadCb msg (turns msg) (cmdTable lib others msg (turns msg)) =
        .ok (some (.text iob)) ∧
      ∀ res : Buffer, res.bytes = iob → ipcReqRes res (turns res) = .ok true ∧
        ∃ calls, tgetCommon res (turns res) res.base keys = .ok (IpcErr.ok.toInt, calls) ∧
          Delivers res keys (lib.reported sel) calls := by
  refine ⟨reply keys (lib.reported sel), cliReadCb_eq lib others sel keys request, ?_⟩
  intro res is
  have at_base := res.holds_base
  have value : Value res.bytes := is ▸ value_reply keys (lib.reported sel)
  rw [is] at at_base
  have enough : 2 * (reply keys (lib.reported sel)).length ≤ turns res := by
    rw [← is]
    unfold turns
    omega
  constructor
  · have at_d : res.Holds res.base ('d'.toUInt8 ::
        ((pairElems (replyPairs keys (lib.reported sel))).flatten ++ ['e'.toUInt8])) := at_base
    have valid := bencValidate_of_value value (show _ ≤ turns res by unfold turns; omega)
    rw [ipcReqRes, valid, Exec.bind_ok, if_neg (not_not_intro rfl), bencIsdct, at_d.read_eq]
    rfl
  · exact tgetCommon_eq asked (lib.reported sel) at_base enough

theorem noZero_c : 0 ∉ literal "/c" := by decide

/-- A torrent that is not active and has no label. -/
def idle : Tlib where
  name := some ⟨literal "a", by decide⟩
  dir := some ⟨literal "/c", noZero_c⟩
  label := none
  totUp := 7
  totDown := 9
  contentSize := 10
  contentHave := 10
  num := 1
  hash := List.replicate 20 101
  tp := none
  length_hash := rfl
  printed := by decide

/-- A torrent that has two of its three pieces. -/
def leech : Tlib where
  name := some ⟨literal "i3e4:", by decide⟩
  dir := some ⟨literal "/c", noZero_c⟩
  label := some ⟨[], by decide⟩
  totUp := 0
  totDown := 0
  contentSize := 30
  contentHave := 0
  num := 2
  hash := List.replicate 20 0
  tp := some {
    state := .leech
    delete := false
    npieces := 3
    cmContent := 20
    cmPieces := 2
    pieceCount := [1, 0, 2]
    rateDwn := 400
    rateUp := 19
    downloaded := 20
    uploaded := 0
    npeers := 2
    trGoodCount := 1
    length_pieceCount := rfl
  }
  length_hash := rfl
  printed := by decide

def twoTorrents : Library where
  entries := [leech, idle]
  tlibByNum n := [leech, idle].find? fun tl => tl.num = n
  tlibByHash hash := [leech, idle].find? fun tl => tl.hash = hash

/-- Both torrents, and a number without one. -/
def threeNames : Selection := .list [.num 1, .num 3, .hash (List.replicate 20 0) rfl]

def threeNamesBuffer : Buffer where
  base := 4096
  bytes := btpdTget threeNames [.label, .name, .pcgot, .ihash, .pcseen]
  base_pos := page_pos
  fits := by decide +kernel

theorem tget_delivers_threeNames :
    ∃ iob, cliReadCb threeNamesBuffer (turns threeNamesBuffer) (cmdTable twoTorrents
        (fun _ _ _ => pure (.error ENOENT)) threeNamesBuffer (turns threeNamesBuffer)) =
        .ok (some (.text iob)) ∧
      ∀ res : Buffer, res.bytes = iob → ipcReqRes res (turns res) = .ok true ∧
        ∃ calls, tgetCommon res (turns res) res.base [.label, .name, .pcgot, .ihash, .pcseen] =
            .ok (IpcErr.ok.toInt, calls) ∧
          Delivers res [.label, .name, .pcgot, .ihash, .pcseen] [some idle, none, some leech]
            calls :=
  tget_delivers twoTorrents _ threeNames _ (List.cons_ne_nil _ _) threeNamesBuffer rfl

end Btpd.Ipc
