import Btpd.Download.Moves

/-!
# Well-formed sequences of messages

What has been sent to a peer and what is queued for it, taken together, are a
handshake and then whole messages: the header of a block is followed by its
data, and the header of a bit field by the field.  The steps of the output line
keep this, since they take back a header only together with what follows it.
-/

namespace Btpd.Download

/-- A buffer that is a message, or several, by itself. -/
def NetBuf.alone : NetBuf → Bool
  | .piece .. | .torrentData _ | .bitfield | .bitdata .. | .shake => false
  | _ => true

theorem NetBuf.alone_of_remark {nb : NetBuf} (remark : nb.remark = true) :
    nb.alone = true := by
  cases nb with
  | interest | uninterest | request | cancel | keepalive => rfl
  | _ => cases remark

/-- A sequence of buffers that are whole messages, after the handshake.  `whole`
says which data may follow the header of a block. -/
inductive Messages (whole : Nat → Nat → Nat → Option (List UInt8) → Prop) (nbytes : Nat) :
    List NetBuf → Prop
  | nil : Messages whole nbytes []
  | alone {nb rest} : nb.alone = true → Messages whole nbytes rest →
      Messages whole nbytes (nb :: rest)
  | block {index begin length data rest} : whole index begin length data →
      Messages whole nbytes rest →
      Messages whole nbytes (.piece index begin length :: .torrentData data :: rest)
  | field {held rest} : Messages whole nbytes rest →
      Messages whole nbytes (.bitfield :: .bitdata nbytes held :: rest)

namespace Messages

variable {whole : Nat → Nat → Nat → Option (List UInt8) → Prop} {nbytes : Nat}
  {log : List NetBuf} {j index begin length : Nat}

theorem append {log' : List NetBuf} (messages : Messages whole nbytes log)
    (messages' : Messages whole nbytes log') : Messages whole nbytes (log ++ log') := by
  induction messages with
  | nil => exact messages'
  | alone alone _ ih => exact .alone alone ih
  | block data _ ih => exact .block data ih
  | field _ ih => exact .field ih

theorem singleton {nb : NetBuf} (alone : nb.alone = true) : Messages whole nbytes [nb] :=
  .alone alone .nil

/-- A buffer by itself may be taken out. -/
theorem eraseIdx {nb : NetBuf} (messages : Messages whole nbytes log)
    (found : log[j]? = some nb) (alone : nb.alone = true) :
    Messages whole nbytes (log.eraseIdx j) := by
  induction messages generalizing j with
  | nil => exact .nil
  | alone alone' rest ih =>
      cases j with
      | zero => exact rest
      | succ j => exact .alone alone' (ih found)
  | block data rest ih =>
      match j with
      | 0 | 1 =>
          cases found
          cases alone
      | j + 2 => exact .block data (ih found)
  | field rest ih =>
      match j with
      | 0 | 1 =>
          cases found
          cases alone
      | j + 2 => exact .field (ih found)

/-- The header of a block is followed by its data. -/
theorem follows (messages : Messages whole nbytes log)
    (found : log[j]? = some (.piece index begin length)) :
    ∃ data, log[j + 1]? = some (.torrentData data) ∧ whole index begin length data := by
  induction messages generalizing j with
  | nil => cases found
  | alone alone _ ih =>
      cases j with
      | zero =>
          cases found
          cases alone
      | succ j => exact ih found
  | block data _ ih =>
      match j with
      | 0 =>
          cases found
          exact ⟨_, rfl, data⟩
      | 1 => cases found
      | j + 2 => exact ih found
  | field _ ih =>
      match j with
      | 0 | 1 => cases found
      | j + 2 => exact ih found

/-- The data of a block follows its header. -/
theorem precedes {data : Option (List UInt8)} (messages : Messages whole nbytes log)
    (found : log[j]? = some (.torrentData data)) :
    ∃ i index begin length, j = i + 1 ∧ log[i]? = some (.piece index begin length) := by
  induction messages generalizing j with
  | nil => cases found
  | alone alone _ ih =>
      cases j with
      | zero =>
          cases found
          cases alone
      | succ j =>
          obtain ⟨i, index, begin, length, rfl, header⟩ := ih found
          exact ⟨i + 1, index, begin, length, rfl, header⟩
  | block _ _ ih =>
      match j with
      | 0 => cases found
      | 1 => exact ⟨0, _, _, _, rfl, rfl⟩
      | j + 2 =>
          obtain ⟨i, index, begin, length, rfl, header⟩ := ih found
          exact ⟨i + 2, index, begin, length, rfl, header⟩
  | field _ ih =>
      match j with
      | 0 | 1 => cases found
      | j + 2 =>
          obtain ⟨i, index, begin, length, rfl, header⟩ := ih found
          exact ⟨i + 2, index, begin, length, rfl, header⟩

/-- A block may be taken out. -/
theorem eraseBlock (messages : Messages whole nbytes log)
    (found : log[j]? = some (.piece index begin length)) :
    Messages whole nbytes ((log.eraseIdx j).eraseIdx j) := by
  induction messages generalizing j with
  | nil => cases found
  | alone alone rest ih =>
      cases j with
      | zero =>
          cases found
          cases alone
      | succ j => exact .alone alone (ih found)
  | block data rest ih =>
      match j with
      | 0 => exact rest
      | 1 => cases found
      | j + 2 => exact .block data (ih found)
  | field rest ih =>
      match j with
      | 0 | 1 => cases found
      | j + 2 => exact .field (ih found)

/-- The data of blocks may be filled in. -/
theorem filled {read : Nat → Nat → Nat → List UInt8} {log' : List NetBuf}
    (messages : Messages whole nbytes log) (fills : Filled read log log')
    (reads : ∀ index begin length, whole index begin length none →
      whole index begin length (some (read index begin length))) :
    Messages whole nbytes log' := by
  induction messages generalizing log' with
  | nil =>
      cases fills
      exact .nil
  | alone alone _ ih =>
      cases fills with
      | same _ fills => exact .alone alone (ih fills)
      | block => cases alone
  | block data _ ih =>
      cases fills with
      | same _ fills =>
          cases fills with
          | same _ fills => exact .block data (ih fills)
      | block index begin length fills => exact .block (reads _ _ _ data) (ih fills)
  | field _ ih =>
      cases fills with
      | same _ fills =>
          cases fills with
          | same _ fills => exact .field (ih fills)

end Messages

/-! ## What is left out -/

/-- Buffers that say nothing of what `f` looks at are taken out. -/
theorem filterMap_eraseIdx {α β : Type} {f : α → Option β} {xs : List α} {k : Nat} {x : α}
    (found : xs[k]? = some x) (silent : f x = none) :
    (xs.eraseIdx k).filterMap f = xs.filterMap f := by
  induction xs generalizing k with
  | nil => rfl
  | cons y xs ih =>
      cases k with
      | zero =>
          cases found
          rw [List.filterMap_cons, silent]
          rfl
      | succ k =>
          rw [List.eraseIdx_cons_succ, List.filterMap_cons, List.filterMap_cons, ih found]

theorem filter_eraseIdx {α : Type} {p : α → Bool} {xs : List α} {k : Nat} {x : α}
    (found : xs[k]? = some x) (silent : p x = false) : (xs.eraseIdx k).filter p = xs.filter p := by
  rw [← List.filterMap_eq_filter]
  exact filterMap_eraseIdx found (Option.guard_eq_none_iff.mpr silent)

/-- Filling in data changes nothing for who does not look at data. -/
theorem Filled.filterMap_eq {β : Type} {f : NetBuf → Option β}
    {read : Nat → Nat → Nat → List UInt8} {log log' : List NetBuf}
    (fills : Filled read log log') (silent : ∀ data, f (.torrentData data) = none) :
    log'.filterMap f = log.filterMap f := by
  induction fills with
  | nil => rfl
  | same nb _ ih => rw [List.filterMap_cons, List.filterMap_cons, ih]
  | block _ _ _ _ ih =>
      rw [List.filterMap_cons, List.filterMap_cons, List.filterMap_cons, List.filterMap_cons,
        silent, silent, ih]

theorem Filled.filter_eq {p : NetBuf → Bool} {read : Nat → Nat → Nat → List UInt8}
    {log log' : List NetBuf} (fills : Filled read log log')
    (silent : ∀ data, p (.torrentData data) = false) : log'.filter p = log.filter p := by
  rw [← List.filterMap_eq_filter]
  exact fills.filterMap_eq fun data => Option.guard_eq_none_iff.mpr (silent data)

theorem Filled.append {read : Nat → Nat → Nat → List UInt8} {outq outq' : List NetBuf}
    (fills : Filled read outq outq') (sent : List NetBuf) :
    Filled read (sent ++ outq) (sent ++ outq') := by
  induction sent with
  | nil => exact fills
  | cons nb sent ih => exact .same nb ih

/-! ## The log of a line -/

namespace Line

/-- What has been sent and what is queued. -/
def log (l : Line) : List NetBuf := l.sent ++ l.outq

/-- A handshake and then whole messages. -/
def Spoken (whole : Nat → Nat → Nat → Option (List UInt8) → Prop) (nbytes : Nat) (l : Line) :
    Prop :=
  ∃ rest, l.log = .shake :: rest ∧ Messages whole nbytes rest

variable {whole : Nat → Nat → Nat → Option (List UInt8) → Prop} {nbytes : Nat} {l l' : Line}

theorem log_push {nbs : List NetBuf} : (l.push nbs).log = l.log ++ nbs :=
  (List.append_assoc _ _ _).symm

theorem log_getElem? {k : Nat} : l.log[l.sent.length + k]? = l.outq[k]? := by
  rw [log, List.getElem?_append_right (Nat.le_add_right _ _), Nat.add_sub_cancel_left]

theorem log_unsay {k : Nat} :
    ({ l with outq := l.outq.eraseIdx k } : Line).log = l.log.eraseIdx (l.sent.length + k) := by
  rw [log, log, List.eraseIdx_append_of_length_le (Nat.le_add_right _ _),
    Nat.add_sub_cancel_left]

theorem log_unsayBlock {k : Nat} :
    ({ l with outq := (l.outq.eraseIdx k).eraseIdx k } : Line).log =
      (l.log.eraseIdx (l.sent.length + k)).eraseIdx (l.sent.length + k) := by
  rw [← log_unsay]
  exact log_unsay (l := { l with outq := l.outq.eraseIdx k })

theorem log_whole {nb : NetBuf} {outq : List NetBuf} (here : l.outq = nb :: outq) :
    (l.sent ++ [nb]) ++ outq = l.log := by
  rw [log, here, List.append_assoc]
  rfl

namespace Spoken

theorem push {nbs : List NetBuf} (spoken : Spoken whole nbytes l)
    (messages : Messages whole nbytes nbs) : Spoken whole nbytes (l.push nbs) := by
  obtain ⟨rest, logEq, before⟩ := spoken
  refine ⟨rest ++ nbs, ?_, before.append messages⟩
  rw [log_push, logEq]
  rfl

/-- The steps of the line take back whole messages. -/
theorem step (spoken : Spoken whole nbytes l) (step : Step l l') :
    Spoken whole nbytes l' := by
  cases step with
  | say remark _ => exact spoken.push (.singleton (NetBuf.alone_of_remark remark))
  | @unsay k nb remark found _ =>
      obtain ⟨rest, logEq, messages⟩ := spoken
      have here : l.log[l.sent.length + k]? = some nb := log_getElem?.trans found
      have erased := log_unsay (l := l) (k := k)
      rw [logEq] at here erased
      generalize l.sent.length + k = j at here erased
      cases j with
      | zero =>
          cases here
          cases remark
      | succ j =>
          exact ⟨rest.eraseIdx j, erased, messages.eraseIdx here (NetBuf.alone_of_remark remark)⟩
  | @unsayBlock k index begin length found _ _ =>
      obtain ⟨rest, logEq, messages⟩ := spoken
      have here : l.log[l.sent.length + k]? = some (.piece index begin length) :=
        log_getElem?.trans found
      have erased := log_unsayBlock (l := l) (k := k)
      rw [logEq] at here erased
      generalize l.sent.length + k = j at here erased
      cases j with
      | zero => cases here
      | succ j => exact ⟨_, erased, messages.eraseBlock here⟩
  | unchoke _ => exact spoken.push (.singleton rfl)
  | choke _ _ => exact spoken.push (.singleton rfl)
  | limit _ _ => exact spoken.push (.alone rfl (.singleton rfl))

/-- A write fills in data and moves messages from the queue to what is sent. -/
theorem write {t : Torrent} {cm : Content} (spoken : Spoken whole nbytes l)
    (write : Write t cm l l')
    (reads : ∀ index begin length, whole index begin length none →
      whole index begin length (some (cm.readBlock t index begin length))) :
    Spoken whole nbytes l' := by
  obtain ⟨rest, logEq, messages⟩ := spoken
  cases write with
  | @fill outq fills =>
      have logFills : Filled (cm.readBlock t) l.log (l.sent ++ outq) := fills.append l.sent
      rw [logEq] at logFills
      generalize filledEq : l.sent ++ outq = log' at logFills
      cases logFills with
      | same _ fills => exact ⟨_, filledEq, messages.filled fills reads⟩
  | whole here _ =>
      exact ⟨rest, (log_whole here).trans logEq, messages⟩
  | part _ _ _ _ => exact ⟨rest, logEq, messages⟩

/-- When a header is taken back, the data of its block is at its place. -/
theorem follows {k index begin length : Nat} (spoken : Spoken whole nbytes l)
    (found : l.outq[k]? = some (.piece index begin length)) :
    ∃ data, (l.log.eraseIdx (l.sent.length + k))[l.sent.length + k]? =
      some (.torrentData data) := by
  obtain ⟨rest, logEq, messages⟩ := spoken
  have here : l.log[l.sent.length + k]? = some (.piece index begin length) :=
    log_getElem?.trans found
  rw [List.getElem?_eraseIdx_of_ge (Nat.le_refl _)]
  rw [logEq] at here ⊢
  generalize l.sent.length + k = j at here ⊢
  cases j with
  | zero => cases here
  | succ j =>
      obtain ⟨data, follows, -⟩ := messages.follows here
      exact ⟨data, follows⟩

end Spoken

/-- The data of a block follows its header, in the queue or across its start. -/
theorem precedes {k : Nat} {data : Option (List UInt8)} (spoken : Spoken whole nbytes l)
    (found : l.outq[k]? = some (.torrentData data)) :
    ∃ i index begin length, l.sent.length + k = i + 1 ∧
      l.log[i]? = some (.piece index begin length) := by
  obtain ⟨rest, logEq, messages⟩ := spoken
  have here := (log_getElem? (l := l) (k := k)).trans found
  rw [logEq] at here ⊢
  generalize l.sent.length + k = j at here ⊢
  cases j with
  | zero => cases here
  | succ j =>
      obtain ⟨i, index, begin, length, rfl, header⟩ := messages.precedes here
      exact ⟨i + 1, index, begin, length, rfl, header⟩

end Line

/-- A peer whose handshake has been read has been sent ours. -/
theorem create_log {t : Torrent} (unwritten : Option (Fin 68)) :
    (Peer.create t unwritten).line.log = [.shake] := by
  cases unwritten <;> rfl

end Btpd.Download
