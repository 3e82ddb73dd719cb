import Btpd.Wire.Buffers
import Btpd.Input.Bounds

/-!
# Units fed to the parser

The bytes of a message take the parser of a connection, unit by unit, from the length of one
message to the length of the next one, and the handler of just that message is called.
-/

namespace Btpd.Wire

open Download (encBe32)
open Input

variable {h : Host} {p q r : Parser} {bytes bytes' : List UInt8} {npieces : Nat}
  {index begin length : Nat}

/-! ## Numbers -/

theorem decBe32_encBe32 {x : Nat} (lt : x < 2 ^ 32) : decBe32 (encBe32 x ++ bytes) = x := by
  unfold decBe32 encBe32
  simp only [List.cons_append, List.nil_append, List.take_succ_cons, List.take_zero,
    List.foldl_cons, List.foldl_nil, UInt8.toNat_ofNat']
  omega

theorem decBe32_enc {x : Nat} (lt : x < 2 ^ 32) : decBe32 (encBe32 x) = x := by
  have whole : decBe32 (encBe32 x ++ []) = x := decBe32_encBe32 lt
  rw [List.append_nil] at whole
  exact whole

/-! ## One unit -/

/-- The parser that has read the head of a message. -/
def heading (p : Parser) (buf : List UInt8) : Parser :=
  { p with
    calls := p.calls ++ [⟨p.state, p.msgLen, buf⟩]
    msgNum := (buf.headD 0).toNat }

/-- The parser that has noted a call of `net_state`. -/
def noted (p : Parser) (buf : List UInt8) : Parser :=
  { p with calls := p.calls ++ [⟨p.state, p.msgLen, buf⟩] }

theorem netState_msgsize {buf : List UInt8} (state : p.state = .btpMsgsize) :
    netState h p buf = if decBe32 buf = 0 then { noted p buf with msgLen := decBe32 buf }
      else ({ noted p buf with msgLen := decBe32 buf }).setInState .btpMsghead 1 := by
  cases p
  dsimp only at state
  subst state
  rfl

theorem netState_msghead {buf : List UInt8} (state : p.state = .btpMsghead) :
    netState h p buf = if netMhOk (heading p buf) = false then (heading p buf).kill
      else if p.msgLen = 1 then
        match netDispatchMsg h (heading p buf) buf with
        | none => (heading p buf).kill
        | some p => p.setInState .btpMsgsize 4
      else if (heading p buf).msgNum = 7 then (heading p buf).setInState .btpPiecemeta 8
      else (heading p buf).setInState .btpMsgbody (sub32 p.msgLen 1) := by
  cases p
  dsimp only at state
  subst state
  rfl

theorem netState_piecemeta {buf : List UInt8} (state : p.state = .btpPiecemeta) :
    netState h p buf =
      ({ noted p buf with pcIndex := decBe32 buf, pcBegin := decBe32 (buf.drop 4) }).setInState
        .btpMsgbody (sub32 p.msgLen 9) := by
  cases p
  dsimp only at state
  subst state
  rfl

theorem netState_msgbody {buf : List UInt8} (state : p.state = .btpMsgbody) :
    netState h p buf = match netDispatchMsg h (noted p buf) buf with
      | none => (noted p buf).kill
      | some p => p.setInState .btpMsgsize 4 := by
  cases p
  dsimp only at state
  subst state
  rfl

/-! ## Feeding the parser -/

/-- `net_mh_ok` lets the head of a message pass, if that is what the call is for. -/
def Passes (npieces : Nat) (c : Input.Call) : Prop :=
  c.state = .btpMsghead → ∀ r : Parser, r.npieces = npieces → r.msgLen = c.msgLen →
    r.msgNum = (c.buf.headD 0).toNat → netMhOk r = true

theorem netMhOk_congr (n : p.npieces = q.npieces) (len : p.msgLen = q.msgLen)
    (num : p.msgNum = q.msgNum) : netMhOk p = netMhOk q := by
  unfold netMhOk
  rw [n, len, num]

/-- A parser that goes on behind a head has let it pass. -/
theorem passes_of_alive {buf : List UInt8} (n : p.state = .btpMsghead → p.npieces = npieces)
    (alive : (netState h p buf).killed = false) : Passes npieces ⟨p.state, p.msgLen, buf⟩ := by
  intro head r n' len num
  have same : netMhOk r = netMhOk (heading p buf) := netMhOk_congr (n'.trans (n head).symm) len num
  by_contra bad
  rw [same, Bool.not_eq_true] at bad
  rw [netState_msghead head, if_pos bad] at alive
  cases alive

/-- The bytes take the parser `p` to `q`, with nothing left over, and all heads pass. -/
structure Fed (h : Host) (npieces : Nat) (p : Parser) (bytes : List UInt8) (q : Parser) :
    Prop where
  pushes : ∀ sized : p.Sized, ∃ sized' : q.Sized,
    (framing h).pushes (⟨p, sized⟩, []) bytes = (⟨q, sized'⟩, [])
  calls : ∃ calls, q.calls = p.calls ++ calls ∧ ∀ c ∈ calls, Passes npieces c

theorem Fed.refl : Fed h npieces p [] p :=
  ⟨fun sized => ⟨sized, rfl⟩, [], (List.append_nil _).symm, fun _ mem => nomatch mem⟩

theorem Fed.trans (first : Fed h npieces p bytes q) (second : Fed h npieces q bytes' r) :
    Fed h npieces p (bytes ++ bytes') r := by
  constructor
  · intro sized
    obtain ⟨sized', fed⟩ := first.pushes sized
    obtain ⟨sized'', fed'⟩ := second.pushes sized'
    refine ⟨sized'', ?_⟩
    rw [Framing.pushes_append, fed, fed']
  · obtain ⟨calls, eq, pass⟩ := first.calls
    obtain ⟨calls', eq', pass'⟩ := second.calls
    refine ⟨calls ++ calls', ?_, fun c mem => ?_⟩
    · rw [eq', eq, List.append_assoc]
    · exact (List.mem_append.1 mem).elim (pass c) (pass' c)

theorem pushes_unit (sized : p.Sized) (alive : p.killed = false) (some : 0 < p.stBytes)
    (whole : bytes.length = p.stBytes) :
    (framing h).pushes (⟨p, sized⟩, []) bytes = (framing h).settle
      ((framing h).next ((framing h).progress ⟨p, sized⟩ bytes.length) bytes) := by
  have alive : (framing h).stopped ⟨p, sized⟩ = false := alive
  have exact : ([] : List UInt8).length + bytes.length = (framing h).need ⟨p, sized⟩ := by
    rw [List.length_nil, Nat.zero_add]
    exact whole
  exact Framing.pushes_exact (framing_lawful h) alive some exact

theorem netState_progress_calls {k : Nat} {buf : List UInt8} :
    (netState h (netProgress p k) buf).calls = p.calls ++ [⟨p.state, p.msgLen, buf⟩] := by
  obtain ⟨downloaded, progress⟩ := netProgress_eq p k
  rw [progress]
  exact (netState_step h _ buf).calls

theorem passes_progress {k : Nat} {buf : List UInt8}
    (n : p.state = .btpMsghead → p.npieces = npieces)
    (alive : (netState h (netProgress p k) buf).killed = false) :
    Passes npieces ⟨p.state, p.msgLen, buf⟩ := by
  obtain ⟨downloaded, progress⟩ := netProgress_eq p k
  rw [progress] at alive
  exact passes_of_alive (p := { p with downloaded := downloaded }) n alive

/-- A unit is given to `net_state`. -/
theorem fed_unit (n : p.state = .btpMsghead → p.npieces = npieces) (alive : p.killed = false)
    (some : 0 < p.stBytes) (whole : bytes.length = p.stBytes)
    (next : netState h (netProgress p bytes.length) bytes = q) (alive' : q.killed = false)
    (waits : 0 < q.stBytes) : Fed h npieces p bytes q := by
  subst next
  constructor
  · intro sized
    have sized' := (netState_step h _ bytes).sized (sized.netProgress bytes.length)
    refine ⟨sized', ?_⟩
    rw [pushes_unit sized alive some whole]
    exact Framing.settle_of_awake fun _ => waits
  · refine ⟨_, netState_progress_calls, fun c mem => ?_⟩
    cases List.mem_singleton.1 mem
    exact passes_progress n alive'

/-- A unit behind which a body of no bytes comes. -/
theorem fed_unit_empty (n : p.state = .btpMsghead → p.npieces = npieces)
    (alive : p.killed = false) (some : 0 < p.stBytes) (whole : bytes.length = p.stBytes)
    (next : netState h (netProgress p bytes.length) bytes = q) (alive' : q.killed = false)
    (body : q.state = .btpMsgbody) (none : q.stBytes = 0) :
    Fed h npieces p bytes (netState h q []) := by
  subst next
  constructor
  · intro sized
    have sized' := (netState_step h _ bytes).sized (sized.netProgress bytes.length)
    refine ⟨(netState_step h _ []).sized sized', ?_⟩
    rw [pushes_unit sized alive some whole]
    exact if_pos ⟨alive', none⟩
  · have calls := (netState_step h (netState h (netProgress p bytes.length) bytes) []).calls
    rw [netState_progress_calls, List.append_assoc] at calls
    refine ⟨_, calls, fun c mem => ?_⟩
    rcases List.mem_append.1 mem with mem | mem
    · cases List.mem_singleton.1 mem
      exact passes_progress n alive'
    · cases List.mem_singleton.1 mem
      intro head
      cases body.symm.trans head

/-- Reads of one byte take the whole stream when the connection lives behind it. -/
theorem netReads_bytes_nil {r : Framing.Held SizedParser UInt8} (waits : (framing h).Waits r)
    (alive : ((framing h).pushes r bytes).1.1.killed = false) :
    netReads h (conn r) bytes (List.replicate bytes.length .byte) =
      some (conn ((framing h).pushes r bytes), []) := by
  induction bytes generalizing r with
  | nil => rfl
  | cons b bytes ih =>
      rw [List.length_cons, List.replicate_succ]
      unfold netReads
      split
      case isTrue killed =>
        rw [Framing.pushes_stopped (m := framing h) killed] at alive
        exact absurd killed (ne_true_of_eq_false alive)
      case isFalse living =>
        have living : r.1.1.killed = false := Bool.not_eq_true _ ▸ living
        rw [netRead_eq waits living]
        show netReads h (conn ((framing h).pushes r _)) _ _ = _
        rw [show Read.byte.arrived = 1 from rfl, show Read.byte.rmax = 1 from rfl, space_one,
          Nat.min_self]
        exact ih (Framing.waits_push (framing_lawful h) waits) alive

/-- Any reads that take the bytes off the stream leave the parser that they are fed to. -/
theorem Fed.netReads (fed : Fed h npieces p bytes q) (sized : p.Sized) (waits : 0 < p.stBytes)
    (alive : q.killed = false) :
    (∀ reads, ∃ c left, Input.netReads h ⟨p, none⟩ bytes reads = some (c, left) ∧
      (left = [] → c = ⟨q, none⟩)) ∧
      Input.netReads h ⟨p, none⟩ bytes (List.replicate bytes.length .byte) =
        some (⟨q, none⟩, []) := by
  obtain ⟨sized', pushed⟩ := fed.pushes sized
  have begun : (framing h).Waits (⟨p, sized⟩, []) := .inl waits
  constructor
  · intro reads
    obtain ⟨taken, left, whole, read⟩ := netReads_eq bytes reads begun
    refine ⟨_, left, read, fun none => ?_⟩
    rw [none, List.append_nil] at whole
    rw [← whole, pushed]
    rfl
  · have living : ((framing h).pushes (⟨p, sized⟩, []) bytes).1.1.killed = false := by
      rw [pushed]
      exact alive
    have read : Input.netReads h ⟨p, none⟩ bytes (List.replicate bytes.length .byte) =
        some (conn ((framing h).pushes (⟨p, sized⟩, []) bytes), []) :=
      netReads_bytes_nil begun living
    rw [pushed] at read
    exact read

/-! ## The units of a message -/

variable {ds : List Dispatch} {state : InState} {size x : Nat} {num : UInt8} {msg : Message}

/-- A parser that waits for a unit, with the messages that it has given out. -/
structure At (npieces : Nat) (ds : List Dispatch) (state : InState) (size : Nat) (p : Parser) :
    Prop where
  state : p.state = state
  size : p.stBytes = size
  alive : p.killed = false
  npieces : p.npieces = npieces
  dispatched : p.dispatched = ds

/-- Between two messages. -/
abbrev Ready (npieces : Nat) (ds : List Dispatch) (p : Parser) : Prop :=
  At npieces ds .btpMsgsize 4 p

/-- A message has been given to its handler. -/
def Given (npieces : Nat) (ds : List Dispatch) (msg : Message) (p : Parser) : Prop :=
  ∃ d : Dispatch, d.msg = msg ∧ Ready npieces (ds ++ [d]) p

/-- What the parser knows of a message when it gives it out. -/
structure Known (npieces : Nat) (ds : List Dispatch) (x : Nat) (num : UInt8) (p : Parser) :
    Prop where
  msgLen : p.msgLen = x
  msgNum : p.msgNum = num.toNat
  npieces : p.npieces = npieces
  dispatched : p.dispatched = ds

/-- `net_dispatch_msg` calls the handler of the message. -/
def Gives (h : Host) (p : Parser) (buf : List UInt8) (msg : Message) : Prop :=
  ∃ length, netDispatchMsg h p buf = some (p.give buf length msg)

theorem netProgress_of_ne (other : p.state ≠ .btpMsgbody) (k : Nat) : netProgress p k = p :=
  if_neg fun both => other both.1

/-- A unit that is not of a body. -/
theorem At.unit {k : Nat} (here : At k ds state size p) (n : state = .btpMsghead → k = npieces)
    (pos : 0 < size) (whole : bytes.length = size) (other : state ≠ .btpMsgbody)
    (next : netState h p bytes = q) (alive : q.killed = false) (waits : 0 < q.stBytes) :
    Fed h npieces p bytes q := by
  have outside : p.state ≠ .btpMsgbody := by
    rw [here.state]
    exact other
  refine fed_unit (fun head => ?_) here.alive ?_ (whole.trans here.size.symm) ?_ alive waits
  · exact here.npieces.trans (n (here.state.symm.trans head))
  · rw [here.size]
    exact pos
  · rw [netProgress_of_ne outside]
    exact next

theorem At.fed (here : At npieces ds state size p) (pos : 0 < size)
    (whole : bytes.length = size) (other : state ≠ .btpMsgbody)
    (next : netState h p bytes = q) (alive : q.killed = false) (waits : 0 < q.stBytes) :
    Fed h npieces p bytes q :=
  here.unit (fun _ => rfl) pos whole other next alive waits

theorem fed_keepalive (ready : Ready npieces ds p) :
    ∃ q, Fed h npieces p (encBe32 0) q ∧ Ready npieces ds q := by
  have parsed : netState h p (encBe32 0) =
      { noted p (encBe32 0) with msgLen := decBe32 (encBe32 0) } := by
    rw [netState_msgsize ready.state, decBe32_enc (by decide)]
    exact if_pos rfl
  refine ⟨_, ready.fed (by decide) rfl (by decide) parsed ready.alive ?_, ready.state, ready.size,
    ready.alive, ready.npieces, ready.dispatched⟩
  show 0 < p.stBytes
  rw [ready.size]
  decide

theorem fed_size (ready : Ready npieces ds p) (pos : 0 < x) (lt : x < 2 ^ 32) :
    ∃ q, Fed h npieces p (encBe32 x) q ∧ At npieces ds .btpMsghead 1 q ∧ q.msgLen = x := by
  have parsed : netState h p (encBe32 x) =
      ({ noted p (encBe32 x) with msgLen := x }).setInState .btpMsghead 1 := by
    rw [netState_msgsize ready.state, decBe32_enc lt]
    exact if_neg (Nat.ne_of_gt pos)
  exact ⟨_, ready.fed (by decide) rfl (by decide) parsed ready.alive Nat.one_pos,
    ⟨rfl, rfl, ready.alive, ready.npieces, ready.dispatched⟩, rfl⟩

section Head

variable (head : At npieces ds .btpMsghead 1 p) (len : p.msgLen = x)
include head len

theorem known_heading : Known npieces ds x num (heading p [num]) :=
  ⟨len, rfl, head.npieces, head.dispatched⟩

/-- A message that ends with its type. -/
theorem fed_short (one : x = 1)
    (ok : ∀ q, Known npieces ds x num q → netMhOk q = true)
    (gives : ∀ q, Known npieces ds x num q → Gives h q [num] msg) :
    ∃ q, Fed h npieces p [num] q ∧ Given npieces ds msg q := by
  have known : Known npieces ds x num (heading p [num]) := known_heading head len
  obtain ⟨length, given⟩ := gives _ known
  have parsed : netState h p [num] =
      ((heading p [num]).give [num] length msg).setInState .btpMsgsize 4 := by
    rw [netState_msghead head.state, if_neg (ne_false_of_eq_true (ok _ known)),
      if_pos (len.trans one), given]
  exact ⟨_, head.fed Nat.one_pos rfl (by decide) parsed head.alive (Nat.succ_pos 3),
    ⟨msg, length, _⟩, rfl, rfl, rfl, head.alive, head.npieces,
    congrArg (· ++ _) head.dispatched⟩

/-- The type of a message whose body follows at once. -/
theorem fed_head (more : 1 < x) (lt : x < 2 ^ 32)
    (ok : ∀ q, Known npieces ds x num q → netMhOk q = true) (other : num.toNat ≠ 7) :
    ∃ q, Fed h npieces p [num] q ∧ At npieces ds .btpMsgbody (x - 1) q ∧
      Known npieces ds x num q := by
  have known : Known npieces ds x num (heading p [num]) := known_heading head len
  have parsed : netState h p [num] = (heading p [num]).setInState .btpMsgbody (x - 1) := by
    rw [netState_msghead head.state, if_neg (ne_false_of_eq_true (ok _ known)), len,
      if_neg (Nat.ne_of_gt more), known.msgNum, if_neg other, sub32_eq (Nat.le_of_lt more) lt]
  exact ⟨_, head.fed Nat.one_pos rfl (by decide) parsed head.alive (Nat.sub_pos_of_lt more),
    ⟨rfl, rfl, head.alive, head.npieces, head.dispatched⟩, len, rfl, head.npieces,
    head.dispatched⟩

end Head

/-- A body is given to its handler. -/
theorem netState_body (body : At npieces ds .btpMsgbody size p)
    (gives : Gives h (noted p bytes) bytes msg) : Given npieces ds msg (netState h p bytes) := by
  obtain ⟨length, given⟩ := gives
  rw [netState_msgbody body.state, given]
  exact ⟨⟨msg, length, _⟩, rfl, rfl, rfl, body.alive, body.npieces,
    congrArg (· ++ _) body.dispatched⟩

theorem fed_body (body : At npieces ds .btpMsgbody size p) (pos : 0 < size)
    (whole : bytes.length = size)
    (gives : ∀ downloaded, Gives h (noted { p with downloaded := downloaded } bytes) bytes msg) :
    ∃ q, Fed h npieces p bytes q ∧ Given npieces ds msg q := by
  obtain ⟨downloaded, progress⟩ := netProgress_eq p bytes.length
  have body' : At npieces ds .btpMsgbody size { p with downloaded := downloaded } :=
    ⟨body.state, body.size, body.alive, body.npieces, body.dispatched⟩
  have given := netState_body body' (gives downloaded)
  rw [← progress] at given
  refine ⟨_, fed_unit (fun _ => body.npieces) body.alive ?_ (whole.trans body.size.symm) rfl ?_ ?_,
    given⟩
  · rw [body.size]
    exact pos
  all_goals obtain ⟨d, -, ready⟩ := given
  · exact ready.alive
  · rw [ready.size]
    decide

/-! ## The messages -/

/-- The bytes of a message that is not a block. -/
theorem fed_message (ready : Ready npieces ds p) (pos : 0 < x) (lt : x < 2 ^ 32)
    (ok : ∀ q, Known npieces ds x num q → netMhOk q = true) (other : num.toNat ≠ 7)
    (whole : bytes.length = x - 1)
    (gives : ∀ q buf, Known npieces ds x num q → x = 1 ∨ buf = bytes → Gives h q buf msg) :
    ∃ q, Fed h npieces p (encBe32 x ++ num :: bytes) q ∧ Given npieces ds msg q := by
  obtain ⟨q, fed, head, len⟩ := fed_size (h := h) ready pos lt
  rcases Nat.eq_or_lt_of_le (Nat.succ_le_of_lt pos) with one | more
  · obtain ⟨r, fed', given⟩ := fed_short (h := h) head len one.symm ok fun q known =>
      gives q [num] known (.inl one.symm)
    have none : bytes = [] := by
      rw [← one] at whole
      exact List.eq_nil_of_length_eq_zero whole
    rw [none]
    exact ⟨r, fed.trans fed', given⟩
  · obtain ⟨r, fed', body, known⟩ := fed_head (h := h) head len more lt ok other
    obtain ⟨s, fed'', given⟩ := fed_body body (Nat.sub_pos_of_lt more) whole fun downloaded =>
      gives (noted { r with downloaded := downloaded } bytes) bytes
        ⟨known.msgLen, known.msgNum, known.npieces, known.dispatched⟩ (.inr rfl)
    exact ⟨s, fed.trans (fed'.trans fed''), given⟩

/-- The messages without a body. -/
def onesized : List (UInt8 × Message) :=
  [(0, .choke), (1, .unchoke), (2, .interest), (3, .uninterest)]

theorem fed_onesized (ready : Ready npieces ds p) (short : (num, msg) ∈ onesized) :
    ∃ q, Fed h npieces p (encBe32 1 ++ [num]) q ∧ Given npieces ds msg q := by
  simp only [onesized, List.mem_cons, List.not_mem_nil, or_false, Prod.mk.injEq] at short
  refine fed_message ready Nat.one_pos (by decide) (fun q known => ?_) ?_ rfl
    fun q buf known _ => ⟨0, ?_⟩
  · have num := known.msgNum
    rcases short with ⟨rfl, rfl⟩ | ⟨rfl, rfl⟩ | ⟨rfl, rfl⟩ | ⟨rfl, rfl⟩ <;>
      simp [netMhOk, num, known.msgLen]
  · rcases short with ⟨rfl, rfl⟩ | ⟨rfl, rfl⟩ | ⟨rfl, rfl⟩ | ⟨rfl, rfl⟩ <;> decide
  · have num := known.msgNum
    rcases short with ⟨rfl, rfl⟩ | ⟨rfl, rfl⟩ | ⟨rfl, rfl⟩ | ⟨rfl, rfl⟩ <;>
      simp [netDispatchMsg, num]

theorem fed_have (ready : Ready npieces ds p) (lt : index < 2 ^ 32) :
    ∃ q, Fed h npieces p (encBe32 5 ++ 4 :: encBe32 index) q ∧
      Given npieces ds (.have index) q := by
  refine fed_message ready (by decide) (by decide) (fun q known => ?_) (by decide) rfl
    fun q buf known whole => ⟨4, ?_⟩
  · have num : q.msgNum = 4 := known.msgNum
    simp [netMhOk, num, known.msgLen]
  · have num : q.msgNum = 4 := known.msgNum
    obtain rfl := whole.resolve_left (by decide)
    simp [netDispatchMsg, num, decBe32_enc lt]

theorem fed_bitfield {field : List UInt8} (ready : Ready npieces ds p)
    (lt : fieldBytes npieces + 1 < 2 ^ 32) (first : h.announced ds = false)
    (whole : field.length = fieldBytes npieces) :
    ∃ q, Fed h npieces p (encBe32 (fieldBytes npieces + 1) ++ 5 :: field) q ∧
      Given npieces ds (.bitfield field) q := by
  refine fed_message ready (Nat.succ_pos _) lt (fun q known => ?_) (by decide) whole
    fun q buf known read => ⟨fieldBytes npieces, ?_⟩
  · have num : q.msgNum = 5 := known.msgNum
    simp [netMhOk, num, known.msgLen, known.npieces]
  · have num : q.msgNum = 5 := known.msgNum
    have taken : buf.take (fieldBytes npieces) = field := by
      rcases read with one | rfl
      · have none : fieldBytes npieces = 0 := Nat.succ.inj one
        rw [none] at whole ⊢
        exact (List.eq_nil_of_length_eq_zero whole).symm
      · rw [← whole, List.take_length]
    simp [netDispatchMsg, num, known.npieces, known.dispatched, first, taken]

section Block

variable (lt : index < 2 ^ 32) (lt' : begin < 2 ^ 32) (lt'' : length < 2 ^ 32)
include lt lt' lt''

/-- The three numbers of a request are read back. -/
theorem decBe32_block :
    decBe32 (encBe32 index ++ (encBe32 begin ++ encBe32 length)) = index ∧
      decBe32 ((encBe32 index ++ (encBe32 begin ++ encBe32 length)).drop 4) = begin ∧
      decBe32 ((encBe32 index ++ (encBe32 begin ++ encBe32 length)).drop 8) = length :=
  ⟨decBe32_encBe32 lt, decBe32_encBe32 lt', decBe32_enc lt''⟩

theorem fed_request (ready : Ready npieces ds p) (serves : h.serves ds = true)
    (has : h.cmHasPiece ds index = true) (inside : index < npieces)
    (short : length ≤ pieceBlocklen) (fits : begin + length ≤ h.torrentPieceSize index) :
    ∃ q, Fed h npieces p (encBe32 13 ++ 6 :: (encBe32 index ++ (encBe32 begin ++ encBe32 length)))
        q ∧ Given npieces ds (.request index begin length) q := by
  obtain ⟨i, b, l⟩ := decBe32_block lt lt' lt''
  refine fed_message ready (by decide) (by decide) (fun q known => ?_) (by decide) rfl
    fun q buf known whole => ⟨12, ?_⟩
  · have num : q.msgNum = 6 := known.msgNum
    simp [netMhOk, num, known.msgLen]
  · have num : q.msgNum = 6 := known.msgNum
    obtain rfl := whole.resolve_left (by decide)
    have good : ¬(length > pieceBlocklen ∨ index ≥ npieces ∨ h.cmHasPiece ds index = false ∨
        (begin + length) % 2 ^ 32 > h.torrentPieceSize index) := by
      rintro (long | outside | hasNot | beyond)
      · exact Nat.not_lt_of_le short long
      · exact Nat.not_lt_of_le outside inside
      · cases has.symm.trans hasNot
      · exact Nat.not_lt_of_le (Nat.le_trans (Nat.mod_le _ _) fits) beyond
    unfold netDispatchMsg
    rw [num]
    dsimp only
    rw [i, b, l, known.dispatched, known.npieces, if_pos serves, if_neg good]
    rfl

theorem fed_cancel (ready : Ready npieces ds p) :
    ∃ q, Fed h npieces p (encBe32 13 ++ 8 :: (encBe32 index ++ (encBe32 begin ++ encBe32 length)))
        q ∧ Given npieces ds (.cancel index begin length) q := by
  obtain ⟨i, b, l⟩ := decBe32_block lt lt' lt''
  refine fed_message ready (by decide) (by decide) (fun q known => ?_) (by decide) rfl
    fun q buf known whole => ⟨12, ?_⟩
  · have num : q.msgNum = 8 := known.msgNum
    simp [netMhOk, num, known.msgLen]
  · have num : q.msgNum = 8 := known.msgNum
    obtain rfl := whole.resolve_left (by decide)
    unfold netDispatchMsg
    rw [num]
    dsimp only
    rw [i, b, l]
    rfl

end Block

theorem netDispatchMsg_piece (buf : List UInt8) (num : p.msgNum = 7) :
    netDispatchMsg h p buf = some (p.give buf (sub32 p.msgLen 9)
      (.piece p.pcIndex p.pcBegin (sub32 p.msgLen 9) (buf.take (sub32 p.msgLen 9)))) := by
  cases p
  dsimp only at num
  subst num
  rfl

theorem gives_piece {content : List UInt8} (known : Known npieces ds (9 + content.length) 7 p)
    (i : p.pcIndex = index) (b : p.pcBegin = begin) (word : 9 + content.length < 2 ^ 32) :
    Gives h p content (.piece index begin content.length content) := by
  have rest : sub32 p.msgLen 9 = content.length := by
    rw [known.msgLen, sub32_eq (Nat.le_add_right ..) word, Nat.add_sub_cancel_left]
  refine ⟨content.length, (netDispatchMsg_piece content known.msgNum).trans ?_⟩
  rw [i, b, rest, List.take_length]

/-- The head of a block. -/
theorem fed_pieceHead (head : At npieces ds .btpMsghead 1 p) (len : p.msgLen = x)
    (nine : 9 ≤ x) (fits : x ≤ pieceBlocklen + 9) :
    ∃ q, Fed h npieces p [7] q ∧ At npieces ds .btpPiecemeta 8 q ∧ Known npieces ds x 7 q := by
  have known : Known npieces ds x 7 (heading p [7]) := known_heading head len
  have ok : netMhOk (heading p [7]) = true := by
    have num : (heading p [7]).msgNum = 7 := rfl
    simp only [netMhOk, num, known.msgLen, decide_eq_true_eq]
    exact fits
  have more : ¬p.msgLen = 1 := by
    rw [len]
    omega
  have parsed : netState h p [7] = (heading p [7]).setInState .btpPiecemeta 8 := by
    rw [netState_msghead head.state, if_neg (ne_false_of_eq_true ok), if_neg more]
    exact if_pos known.msgNum
  exact ⟨_, head.fed Nat.one_pos rfl (by decide) parsed head.alive (Nat.succ_pos 7),
    ⟨rfl, rfl, head.alive, head.npieces, head.dispatched⟩, len, rfl, head.npieces,
    head.dispatched⟩

/-- Where a block belongs, and its content. -/
theorem fed_block {content : List UInt8} (here : At npieces ds .btpPiecemeta 8 p)
    (known : Known npieces ds (9 + content.length) 7 p) (lt : index < 2 ^ 32)
    (lt' : begin < 2 ^ 32) (fits : content.length ≤ pieceBlocklen) :
    ∃ q, Fed h npieces p (encBe32 index ++ encBe32 begin ++ content) q ∧
      Given npieces ds (.piece index begin content.length content) q := by
  have word : 9 + content.length < 2 ^ 32 := by
    unfold pieceBlocklen at fits
    omega
  have eight : sub32 (9 + content.length) 9 = content.length := by
    rw [sub32_eq (Nat.le_add_right ..) word, Nat.add_sub_cancel_left]
  let q := ({ noted p (encBe32 index ++ encBe32 begin) with
    pcIndex := index
    pcBegin := begin }).setInState .btpMsgbody content.length
  have parsed : netState h p (encBe32 index ++ encBe32 begin) = q := by
    have second : decBe32 ((encBe32 index ++ encBe32 begin).drop 4) = begin := decBe32_enc lt'
    rw [netState_piecemeta here.state, decBe32_encBe32 lt, second, known.msgLen, eight]
  have body : At npieces ds .btpMsgbody content.length q :=
    ⟨rfl, rfl, here.alive, here.npieces, here.dispatched⟩
  have gives : ∀ downloaded, Gives h (noted { q with downloaded := downloaded } content) content
      (.piece index begin content.length content) :=
    fun downloaded =>
      gives_piece ⟨known.msgLen, known.msgNum, here.npieces, here.dispatched⟩ rfl rfl word
  rcases Nat.eq_zero_or_pos content.length with none | pos
  · have given := netState_body body (gives q.downloaded)
    have outside : netState h (netProgress p 8) (encBe32 index ++ encBe32 begin) = q := by
      rw [netProgress_of_ne (by rw [here.state]; decide)]
      exact parsed
    have fed : Fed h npieces p (encBe32 index ++ encBe32 begin) (netState h q []) :=
      fed_unit_empty (fun _ => here.npieces) here.alive (by rw [here.size]; decide)
        here.size.symm outside here.alive rfl none
    rw [List.eq_nil_of_length_eq_zero none] at given ⊢
    rw [List.append_nil]
    exact ⟨_, fed, given⟩
  · have fed : Fed h npieces p (encBe32 index ++ encBe32 begin) q :=
      here.fed (by decide) rfl (by decide) parsed here.alive pos
    obtain ⟨r, fed', given⟩ := fed_body body pos rfl gives
    exact ⟨r, fed.trans fed', given⟩

theorem fed_piece {content : List UInt8} (ready : Ready npieces ds p) (lt : index < 2 ^ 32)
    (lt' : begin < 2 ^ 32) (fits : content.length ≤ pieceBlocklen) :
    ∃ q, Fed h npieces p (encBe32 (9 + content.length) ++ 7 :: (encBe32 index ++ encBe32 begin) ++
        content) q ∧
      Given npieces ds (.piece index begin content.length content) q := by
  have word : 9 + content.length < 2 ^ 32 := by
    unfold pieceBlocklen at fits
    omega
  obtain ⟨q, fed, head, len⟩ := fed_size (h := h) ready (Nat.add_pos_left (by decide) _) word
  obtain ⟨r, fed', here, known⟩ := fed_pieceHead (h := h) head len (Nat.le_add_right ..) (by
    rw [Nat.add_comm]
    exact Nat.add_le_add_right fits 9)
  obtain ⟨s, fed'', given⟩ := fed_block (h := h) here known lt lt' fits
  exact ⟨s, fed.trans (fed'.trans fed''), given⟩

/-! ## The handshake -/

theorem netState_shakePstr {buf : List UInt8} (state : p.state = .shakePstr) :
    netState h p buf = if buf.take 20 = pstr then (noted p buf).setInState .shakeInfo 20
      else (noted p buf).kill := by
  cases p
  dsimp only at state
  subst state
  rfl

theorem netState_shakeInfo {buf : List UInt8} (state : p.state = .shakeInfo) :
    netState h p buf =
      if h.incoming then
        match h.torrentByHash buf with
        | none => (noted p buf).kill
        | some npieces => ({ noted p buf with npieces := npieces }).setInState .shakeId 20
      else if buf = h.hash then (noted p buf).setInState .shakeId 20
      else (noted p buf).kill := by
  cases p
  dsimp only at state
  subst state
  rfl

theorem netState_shakeId {buf : List UInt8} (state : p.state = .shakeId) :
    netState h p buf =
      if h.netTorrentHasPeer buf ∨ buf = h.btpdGetPeerId then (noted p buf).kill
      else (noted p buf).setInState .btpMsgsize 4 := by
  cases p
  dsimp only at state
  subst state
  rfl

/-- The daemon waits for the torrent with this hash. -/
def Awaits (h : Host) (npieces k : Nat) (hash : List UInt8) : Prop :=
  if h.incoming then h.torrentByHash hash = some npieces else h.hash = hash ∧ k = npieces

variable {k : Nat} {hash peerId : List UInt8}

theorem fed_pstr (here : At k ds .shakePstr 28 p) :
    ∃ q, Fed h npieces p (pstr ++ List.replicate 8 0) q ∧ At k ds .shakeInfo 20 q := by
  have parsed : netState h p (pstr ++ List.replicate 8 0) =
      (noted p (pstr ++ List.replicate 8 0)).setInState .shakeInfo 20 := by
    rw [netState_shakePstr here.state]
    exact if_pos rfl
  exact ⟨_, here.unit (fun head => nomatch head) (by decide) rfl (by decide) parsed here.alive
    (Nat.succ_pos 19), rfl, rfl, here.alive, here.npieces, here.dispatched⟩

theorem fed_info (here : At k ds .shakeInfo 20 p) (whole : hash.length = 20)
    (awaits : Awaits h npieces k hash) :
    ∃ q, Fed h npieces p hash q ∧ At npieces ds .shakeId 20 q := by
  unfold Awaits at awaits
  split at awaits
  case isTrue incoming =>
    have parsed : netState h p hash =
        ({ noted p hash with npieces := npieces }).setInState .shakeId 20 := by
      rw [netState_shakeInfo here.state, if_pos incoming, awaits]
    exact ⟨_, here.unit (fun head => nomatch head) (by decide) whole (by decide) parsed here.alive
      (Nat.succ_pos 19), rfl, rfl, here.alive, rfl, here.dispatched⟩
  case isFalse outgoing =>
    have parsed : netState h p hash = (noted p hash).setInState .shakeId 20 := by
      rw [netState_shakeInfo here.state, if_neg outgoing, if_pos awaits.1.symm]
    exact ⟨_, here.unit (fun head => nomatch head) (by decide) whole (by decide) parsed here.alive
      (Nat.succ_pos 19), rfl, rfl, here.alive, here.npieces.trans awaits.2, here.dispatched⟩

theorem fed_id (here : At npieces ds .shakeId 20 p) (whole : peerId.length = 20)
    (new : h.netTorrentHasPeer peerId = false) (other : peerId ≠ h.btpdGetPeerId) :
    ∃ q, Fed h npieces p peerId q ∧ Ready npieces ds q := by
  have good : ¬(h.netTorrentHasPeer peerId = true ∨ peerId = h.btpdGetPeerId) := by
    rintro (known | self)
    · cases new.symm.trans known
    · exact other self
  have parsed : netState h p peerId = (noted p peerId).setInState .btpMsgsize 4 := by
    rw [netState_shakeId here.state, if_neg good]
  exact ⟨_, here.unit (fun head => nomatch head) (by decide) whole (by decide) parsed here.alive
    (Nat.succ_pos 3), rfl, rfl, here.alive, here.npieces, here.dispatched⟩

theorem fed_shake (here : At k ds .shakePstr 28 p) (whole : hash.length = 20)
    (whole' : peerId.length = 20) (awaits : Awaits h npieces k hash)
    (new : h.netTorrentHasPeer peerId = false) (other : peerId ≠ h.btpdGetPeerId) :
    ∃ q, Fed h npieces p (pstr ++ List.replicate 8 0 ++ (hash ++ peerId)) q ∧
      Ready npieces ds q := by
  obtain ⟨q, fed, info⟩ := fed_pstr (h := h) here
  obtain ⟨r, fed', id⟩ := fed_info info whole awaits
  obtain ⟨s, fed'', ready⟩ := fed_id id whole' new other
  exact ⟨s, fed.trans (fed'.trans fed''), ready⟩

end Btpd.Wire
