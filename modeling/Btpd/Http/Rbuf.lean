import Btpd.Buffers.Refinement
import Btpd.Http.Cuts
import Mathlib

/-!
# The buffer of a request

The parser keeps of `rbuf` the bytes in it, its size and what has been consumed.  That is what
the routines of the growing buffers make of an `iobuf`, as long as no size wraps around; and
where a pointer into the bytes is lost, they ask for another block.
-/

namespace Btpd.Http

open Buffers (Iobuf Represents iobufInit iobufAccommodate iobufConsumed)
open Benc (wordSize)

/-- The request has its bytes in this buffer. -/
structure Holds (iob : Iobuf) (req : HttpReq) : Prop where
  represents : Represents iob ⟨req.rbuf, false⟩
  size : iob.size = req.size
  skip : iob.skip = req.skip

/-- The buffer that `http_get` makes. -/
theorem holds_init (fresh : Nat → UInt8) :
    Holds (iobufInit ⟨4096, by decide⟩ (some fresh)) httpGet :=
  ⟨Buffers.represents_init _ _, rfl, rfl⟩

section Holds

variable {iob : Iobuf} {req : HttpReq}

theorem Holds.works (holds : Holds iob req) : iob.error = false := holds.represents.failed

theorem Holds.off (holds : Holds iob req) : iob.off = req.rbuf.length := holds.represents.shows.off

/-- `iobuf_accommodate` with memory.  A pointer that is not lost stays where it was in the block;
for one that is lost the block has grown. -/
theorem Holds.accommodate (holds : Holds iob req) {count : Nat}
    (small : req.size + count < wordSize) (fresh : Nat → UInt8) (p : Nat) :
    ∃ iob', iobufAccommodate iob count (some fresh) = .ok (iob', true) ∧
      Holds iob' (req.accommodate count p).1 ∧
      match (req.accommodate count p).2 with
      | some q => iob'.size = iob.size ∧ iob'.buf + q = iob.buf + p
      | none => iob'.size = iob.size + count := by
  have rep := holds.represents
  have works := holds.works
  have noWrap : iob.size + count < wordSize := by rwa [holds.size]
  rcases rep.whole works with ⟨bytes, blockEq, -, bufEq⟩
  have inside := rep.inside
  have left : iob.size - iob.off = req.size - (req.skip + req.rbuf.length) + req.skip := by
    rw [← holds.size, ← holds.skip, ← holds.off]
    omega
  have esize : iob.size - (iob.skip + iob.off) = req.size - (req.skip + req.rbuf.length) := by
    rw [holds.size, holds.skip, holds.off]
  rw [Buffers.iobufAccommodate_eq rep works blockEq, esize, left, HttpReq.accommodate]
  by_cases enough : count ≤ req.size - (req.skip + req.rbuf.length)
  · simp only [if_pos enough]
    exact ⟨iob, rfl, holds, rfl, rfl⟩
  · simp only [if_neg enough]
    by_cases shift : count ≤ req.size - (req.skip + req.rbuf.length) + req.skip
    · simp only [if_pos shift]
      have kept := Buffers.shifted_spec rep works blockEq (left ▸ shift)
      refine ⟨_, rfl, ⟨(kept.granted rfl).1, holds.size, rfl⟩, rfl, ?_⟩
      show 0 + (p + req.skip) = iob.buf + p
      rw [bufEq, holds.skip]
      omega
    · simp only [if_neg shift]
      have kept := Buffers.moved_spec rep works blockEq fresh noWrap
      rw [Buffers.plus_eq noWrap]
      refine ⟨_, rfl, ⟨(kept.granted rfl).1, ?_, holds.skip⟩, rfl⟩
      exact congrArg (· + count) holds.size

/-- `iobuf_consumed` of bytes that there are. -/
theorem Holds.consumed (holds : Holds iob req) {count : Nat} (there : count ≤ req.rbuf.length) :
    ∃ iob', iobufConsumed iob count = .ok iob' ∧
      Holds iob' { req with rbuf := req.rbuf.drop count, skip := req.skip + count } := by
  have rep := holds.represents
  have works := holds.works
  have off := holds.off
  have inside := rep.inside
  have word := rep.word
  have skip : Buffers.plus iob.skip count = iob.skip + count := Buffers.plus_eq (by omega)
  have behind : Buffers.minus iob.off count = iob.off - count :=
    Buffers.minus_eq (by omega) (by omega)
  rw [iobufConsumed, if_neg (by rw [works]; exact Bool.false_ne_true), if_pos (off ▸ there)]
  refine ⟨_, rfl, ⟨⟨⟨?_, ?_⟩, rep.failed, ?_, word, fun _ => ?_⟩, holds.size, ?_⟩⟩
  · show Buffers.minus iob.off count = (req.rbuf.drop count).length
    rw [behind, List.length_drop, off]
  · show req.rbuf.drop count <+: iob.block.bytes.drop (iob.buf + count)
    rw [← List.drop_drop]
    exact rep.shows.buf.drop count
  · show Buffers.plus iob.skip count + Buffers.minus iob.off count ≤ iob.size
    rw [skip, behind]
    omega
  · rcases rep.whole works with ⟨bytes, blockEq, lengthEq, bufEq⟩
    refine ⟨bytes, blockEq, lengthEq, ?_⟩
    show iob.buf + count = Buffers.plus iob.skip count
    rw [skip, bufEq]
  · show Buffers.plus iob.skip count = req.skip + count
    rw [skip, holds.skip]

end Holds

end Btpd.Http
