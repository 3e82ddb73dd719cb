import Btpd.Http.Told

/-!
# Responses and their reads

Two clients that read one response in different pieces are told the same if the
response leaves no doubt, both get three bytes in their first read and for neither a
read fills `rbuf` with the end of the head.  With less in the first read `memfind` leaves
the buffer, so that of the responses with any bytes none is safe from all reads; in a
full `rbuf` the pointer to the end of the head is lost.
-/

namespace Btpd.Http

open Text

/-- Both ways of reading end with one last word, and the callback is told the same. -/
def Alike (reads reads' : List (List UInt8)) : Prop :=
  ∃ req req', response patient reads = .ok req ∧ response patient reads' = .ok req' ∧
    observe req.told = observe req'.told ∧ EndsOnce req.told ∧ EndsOnce req'.told

/-- However a stream is read, the callback is told the same. -/
def ReadsAlike (w : List UInt8) : Prop :=
  ∀ reads reads', Cut w reads → Cut w reads' → Alike reads reads'

/-- The last word of a patient client. -/
theorem response_patient {reads : List (List UInt8)} {req : HttpReq}
    (ran : response patient reads = .ok req) : EndsOnce req.told := by
  rcases response_spoken ran with once | ⟨-, cancels⟩
  · exact once
  · cases cancels

/-- How a regular stream is read to its end. -/
theorem roomy_of_response {w : List UInt8} (regular : Regular w) {reads : List (List UInt8)}
    (cut : Cut w reads) (begins : BeginsWith3 reads) {req : HttpReq}
    (ran : response patient reads = .ok req) : Roomy reads := by
  rcases response_meaning regular cut begins with ⟨roomy, -⟩ | ⟨-, stale⟩
  · rw [Roomy, cut.1]
    exact roomy
  · rw [ran] at stale
    cases stale

theorem over_of_roomy {w : List UInt8} (regular : Regular w) {reads : List (List UInt8)}
    (cut : Cut w reads) (begins : BeginsWith3 reads) (roomy : Roomy reads) :
    ∃ req, response patient reads = .ok req ∧ Over (meaning w) req := by
  rw [Roomy, cut.1] at roomy
  exact (response_meaning regular cut begins).elim (·.2) fun stale => absurd roomy stale.1

theorem alike_iff_roomy {w : List UInt8} (regular : Regular w) {reads reads' : List (List UInt8)}
    (cut : Cut w reads) (cut' : Cut w reads') (begins : BeginsWith3 reads)
    (begins' : BeginsWith3 reads') : Alike reads reads' ↔ Roomy reads ∧ Roomy reads' := by
  constructor
  · rintro ⟨req, req', ran, ran', -⟩
    exact ⟨roomy_of_response regular cut begins ran, roomy_of_response regular cut' begins' ran'⟩
  · rintro ⟨roomy, roomy'⟩
    rcases over_of_roomy regular cut begins roomy with ⟨req, ran, gone⟩
    rcases over_of_roomy regular cut' begins' roomy' with ⟨req', ran', gone'⟩
    exact ⟨req, req', ran, ran', gone.2.trans gone'.2.symm, response_patient ran,
      response_patient ran'⟩

/-- What the first read comes to. -/
theorem response_fault {bytes : List UInt8} {reads : List (List UInt8)} {fault : Fault}
    (parse : parseState patient { httpGet with rbuf := bytes } bytes.length = .error fault) :
    response patient (bytes :: reads) = .error fault := by
  have read : httpRead patient httpGet bytes = .error fault := httpParse_fault parse
  rw [response, run, List.map_cons, List.cons_append, List.foldlM_cons, step, read]
  rfl

/-- A first read of one or two bytes makes `memfind` leave the buffer. -/
theorem response_of_short {bytes : List UInt8} {reads : List (List UInt8)} (some_bytes : bytes ≠ [])
    (short : bytes.length < 3) : response patient (bytes :: reads) = .error .outOfBounds := by
  apply response_fault
  have len : bytes.length ≠ 0 := by simpa using some_bytes
  have memory : memfind [cr, lf, cr, lf] bytes = .error .outOfBounds := by
    rw [memfind, if_pos (by simp only [List.length_cons, List.length_nil]; omega)]
  simp only [parseState, httpGet, parseHead, if_neg len, memory]

/-- A first read that fills `rbuf` with the end of the head makes it hand over a pointer into
the block that `realloc` has freed. -/
theorem response_of_full {bytes rest : List UInt8} {reads : List (List UInt8)} {e : Nat}
    {code : Int} (full : bytes.length = readSize) (found : search [cr, lf, cr, lf] bytes = some e)
    (scanned : scanStatus bytes = .got code rest) (line : strchrNl bytes ≠ none) :
    response patient (bytes :: reads) = .error .stalePointer := by
  apply response_fault
  have len : bytes.length ≠ 0 := by
    rw [full]
    decide
  have memory : memfind [cr, lf, cr, lf] bytes = .ok (some e) := by
    rw [memfind, if_neg (by rw [full]; decide), found]
  have lost := headFound_full scanned line e 4
  rw [full] at lost
  simp only [parseState, httpGet, parseHead, if_neg len, memory]
  exact lost

/-- A stream in reads of one byte. -/
theorem cut_singles (w : List UInt8) : Cut w (w.map fun b => [b]) := by
  constructor
  · induction w with
    | nil => rfl
    | cons b w ih => rw [List.map_cons, List.flatten_cons, ih, List.singleton_append]
  · intro bytes mem
    rcases List.mem_map.mp mem with ⟨b, -, rfl⟩
    exact ⟨Nat.le_refl 1, by simp [readSize]⟩

theorem readsAlike_nil : ReadsAlike [] := by
  intro reads reads' cut cut'
  have none : ∀ reads, Cut [] reads → reads = [] := by
    intro reads cut
    cases reads with
    | nil => rfl
    | cons bytes reads =>
        have empty := (List.append_eq_nil_iff.mp (List.flatten_cons ▸ cut.1)).1
        have size := (cut.2 bytes List.mem_cons_self).1
        rw [empty] at size
        exact absurd size (by decide)
  have regular : Regular [] := fun e dlen at_end => by cases at_end
  rw [none reads cut, none reads' cut']
  have empty : Cut [] [] := ⟨rfl, fun _ mem => by cases mem⟩
  have begins : BeginsWith3 [] := fun _ mem => by cases mem
  exact (alike_iff_roomy regular empty empty begins begins).mpr ⟨trivial, trivial⟩

/-- A stream is safe from all reads only if it is empty.  Of reads that begin with three
bytes a regular stream is safe exactly if none of them fills `rbuf` with the end of the head.
Whatever the stream, the reads, the callback and the
cancellations are, there is at most one last word, with nothing told after it, and there is
one at the end of the file unless the callback has cancelled the request. -/
theorem readsAlike_iff (w : List UInt8) :
    (ReadsAlike w ↔ w = []) ∧
      (Regular w → ∀ reads reads', Cut w reads → Cut w reads' → BeginsWith3 reads →
        BeginsWith3 reads' → (Alike reads reads' ↔ Roomy reads ∧ Roomy reads')) ∧
      (∀ callback events req, run callback events = .ok req → OneLastWord req) ∧
      ∀ callback reads req, response callback reads = .ok req →
        EndsOnce req.told ∨ (Quiet req.told ∧ callback req.told = true) := by
  refine ⟨⟨fun alike => ?_, ?_⟩, ?_, fun _ _ _ ran => run_spoken ran,
    fun _ _ _ ran => response_spoken ran⟩
  · cases w with
    | nil => rfl
    | cons b w =>
        rcases alike _ _ (cut_singles (b :: w)) (cut_singles (b :: w)) with ⟨req, -, ran, -⟩
        rw [List.map_cons, response_of_short (by simp) (by simp)] at ran
        cases ran
  · rintro rfl
    exact readsAlike_nil
  · exact fun regular _ _ cut cut' begins begins' =>
      alike_iff_roomy regular cut cut' begins begins'

/-- A response with two kinds of empty lines. -/
def twoEnds : List UInt8 := ascii "HTTP/1.0 200 OK\n\nA: b\r\n\r\n"

/-- A head, and a body of so many bytes that both are one read. -/
def fullHead : List UInt8 := ascii "HTTP/1.0 200 OK\r\nA: b\r\n\r\n"
def fullBody : List UInt8 := List.replicate 4071 65

theorem scanStatus_fullHead (x : List UInt8) :
    ∃ rest, scanStatus (fullHead ++ x) = .got 200 rest := by
  have status : scanStatus fullHead = .got 200 (ascii " OK\r\nA: b\r\n\r\n") := by decide
  have scanned := (scanStatus_local fullHead ⟨fullHead.take 24, by decide⟩ (by simp [status])).2 x
  rw [status] at scanned
  exact ⟨_, scanned⟩

theorem fullHead_ends (x : List UInt8) :
    search [cr, lf, cr, lf] (fullHead ++ x) = some 21 ∧ strchrNl (fullHead ++ x) ≠ none := by
  constructor
  · exact search_append (by decide) (by simp) x
  · have line : strchrNl fullHead ≠ none := by decide
    rw [strchrNl_append ⟨fullHead.take 24, by decide⟩]
    simpa using line

theorem fullHead_size : fullHead.length = 25 ∧ fullBody.length = 4071 :=
  ⟨by decide, List.length_replicate⟩

theorem fullHead_lost : response patient [fullHead ++ fullBody] = .error .stalePointer := by
  rcases scanStatus_fullHead fullBody with ⟨rest, scanned⟩
  have ends := fullHead_ends fullBody
  have full : (fullHead ++ fullBody).length = readSize := by
    rw [List.length_append, fullHead_size.1, fullHead_size.2]
    rfl
  exact response_of_full full ends.1 scanned ends.2

/-- The response cannot be read byte by byte.  With three bytes in the first read it is
wrong if the rest is in the same read, and done if the rest comes later.  A response whose
head comes with a first read of 4096 bytes makes `headers_parse` get a pointer into a block
that has been freed, and does not if the body comes later. -/
theorem not_readsAlike :
    ¬ReadsAlike twoEnds ∧
      (∃ reads reads', Cut twoEnds reads ∧ Cut twoEnds reads' ∧
        BeginsWith3 reads ∧ BeginsWith3 reads' ∧ ¬Alike reads reads') ∧
      Cut (fullHead ++ fullBody) [fullHead ++ fullBody] ∧
      Cut (fullHead ++ fullBody) [fullHead, fullBody] ∧
      response patient [fullHead ++ fullBody] = .error .stalePointer ∧
      ¬Alike [fullHead ++ fullBody] [fullHead, fullBody] := by
  refine ⟨?_, ?_, ⟨by simp, ?_⟩, ⟨by simp, ?_⟩, fullHead_lost, ?_⟩
  · intro alike
    rcases alike _ _ (cut_singles twoEnds) (cut_singles twoEnds) with ⟨req, -, ran, -⟩
    have short : response patient (twoEnds.map fun b => [b]) = .error .outOfBounds :=
      response_of_short (by simp) (by decide)
    rw [short] at ran
    cases ran
  · refine ⟨[twoEnds], [ascii "HTTP/1.0 200 OK\n\n", ascii "A: b\r\n\r\n"], ?_, ?_, ?_, ?_, ?_⟩
    · exact ⟨by decide, by decide⟩
    · exact ⟨by decide, by decide⟩
    · exact fun bytes first => by cases first; decide
    · exact fun bytes first => by cases first; decide
    · have whole : response patient [twoEnds] = .ok { httpGet with
          length := -1, rbuf := twoEnds, told := [.code 200, .err], freed := true } := by
        decide +kernel
      have parts : response patient [ascii "HTTP/1.0 200 OK\n\n", ascii "A: b\r\n\r\n"] = .ok
          { httpGet with
            pstate := .idData, length := -1,
            told := [.code 200, .data (ascii "A: b\r\n\r\n"), .done], freed := true } := by
        decide +kernel
      rintro ⟨req, req', ran, ran', same, -⟩
      rw [whole] at ran
      rw [parts] at ran'
      cases ran
      cases ran'
      exact absurd same (by decide)
  · intro bytes mem
    rw [List.mem_singleton.mp mem, List.length_append, fullHead_size.1, fullHead_size.2]
    decide
  · intro bytes mem
    rcases List.mem_pair.mp mem with rfl | rfl
    · rw [fullHead_size.1]
      decide
    · rw [fullHead_size.2]
      decide
  · rintro ⟨req, -, ran, -⟩
    rw [fullHead_lost] at ran
    cases ran

end Btpd.Http
