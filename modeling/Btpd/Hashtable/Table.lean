import Mathlib

/-!
# The hash table

`misc/hashtable.c`.  The objects belong to the callers: an object holds its key and the link
of the chain that it is in, and the table has one link for each bucket.  `none` is a loop
that has not ended within its fuel, or an access outside the array of buckets.

A table is created with an equality, a hash function and a ratio; of the ratio only the test
in `_htbl_insert` is seen.  Equality is an equivalence that the hash function respects.
-/

namespace Btpd.Hashtable

/-- What `_htbl_create` is given.  `exceeds size buckcnt` is the test
`tbl->size > tbl->buckcnt * tbl->ratio`. -/
structure Params (Key : Type) where
  eq : Key → Key → Bool
  hash : Key → UInt32
  exceeds : Nat → Nat → Bool
  equivalence : Equivalence fun k k' => eq k k' = true
  hash_eq : ∀ k k', eq k k' = true → hash k = hash k'

/-- `struct _htbl` with the memory of the objects: `KEYP` and `CHAINP`. -/
structure Htbl (Obj Key : Type) where
  key : Obj → Key
  chain : Obj → Option Obj
  buckets : List (Option Obj)
  size : Nat

/-- The place of a link, as `&tbl->buckets[bi]` or `&CHAINP(tbl, o)`. -/
inductive Slot (Obj : Type)
  | bucket (bi : Nat)
  | chain (o : Obj)
  deriving DecidableEq

/-- `struct htbl_iter` without the table. -/
structure Iter (Obj : Type) where
  bi : Nat
  cnt : Nat
  ptr : Slot Obj
  obj : Obj
  deriving DecidableEq

variable {Obj Key : Type} [DecidableEq Obj]

/-- `_htbl_create`, when there is memory for it. -/
def htblCreate (key : Obj → Key) (chain : Obj → Option Obj) : Htbl Obj Key where
  key := key
  chain := chain
  buckets := [none]
  size := 0

namespace Htbl

def buckcnt (tbl : Htbl Obj Key) : Nat := tbl.buckets.length

def setChain (tbl : Htbl Obj Key) (o : Obj) (link : Option Obj) : Htbl Obj Key :=
  { tbl with chain := Function.update tbl.chain o link }

def setBucket (tbl : Htbl Obj Key) (bi : Nat) (link : Option Obj) : Htbl Obj Key :=
  { tbl with buckets := tbl.buckets.set bi link }

/-- `*p = link` -/
def write (tbl : Htbl Obj Key) (link : Option Obj) : Slot Obj → Htbl Obj Key
  | .bucket bi => tbl.setBucket bi link
  | .chain o => tbl.setChain o link

end Htbl

def bucketRev : Nat → Htbl Obj Key → Option Obj → Option Obj →
    Option (Option Obj × Htbl Obj Key)
  | 0, _, _, _ => none
  | _ + 1, tbl, p, none => some (p, tbl)
  | fuel + 1, tbl, p, some n => bucketRev fuel (tbl.setChain n p) (some n) (tbl.chain n)

variable (par : Params Key)

/-- The bucket of a key. -/
def home (tbl : Htbl Obj Key) (k : Key) : Nat := (par.hash k).toNat % tbl.buckcnt

def bucketInsert (tbl : Htbl Obj Key) (o : Obj) : Option (Htbl Obj Key) := do
  let bi := home par tbl (tbl.key o)
  let head ← tbl.buckets[bi]?
  return (tbl.setChain o head).setBucket bi (some o)

/-- The inner loop of `_htbl_grow`. -/
def moveChain : Nat → Htbl Obj Key → Option Obj → Option (Htbl Obj Key)
  | 0, _, _ => none
  | _ + 1, tbl, none => some tbl
  | fuel + 1, tbl, some o => do
      let s := tbl.chain o
      let tbl ← bucketInsert par tbl o
      moveChain fuel tbl s

/-- The loop of `_htbl_grow` over the old buckets. -/
def moveBuckets (fuel : Nat) : List (Option Obj) → Htbl Obj Key → Option (Htbl Obj Key)
  | [], tbl => some tbl
  | head :: obuckets, tbl => do
      let (o, tbl) ← bucketRev fuel tbl none head
      let tbl ← moveChain par fuel tbl o
      moveBuckets fuel obuckets tbl

/-- `_htbl_grow`; `memory` says whether `calloc` finds room for the new buckets. -/
def htblGrow (fuel : Nat) (memory : Bool) (tbl : Htbl Obj Key) : Option (Htbl Obj Key) :=
  let ncnt := 2 * tbl.buckcnt + 1
  if memory then
    moveBuckets par fuel tbl.buckets { tbl with buckets := List.replicate ncnt none }
  else
    some tbl

def htblInsert (fuel : Nat) (memory : Bool) (tbl : Htbl Obj Key) (o : Obj) :
    Option (Htbl Obj Key) := do
  let tbl ← bucketInsert par tbl o
  let tbl := { tbl with size := tbl.size + 1 }
  if par.exceeds tbl.size tbl.buckcnt then htblGrow par fuel memory tbl else some tbl

def findLoop (tbl : Htbl Obj Key) (key : Key) : Nat → Option Obj → Option (Option Obj)
  | 0, _ => none
  | _ + 1, none => some none
  | fuel + 1, some ret =>
      if par.eq (tbl.key ret) key then some (some ret)
      else findLoop tbl key fuel (tbl.chain ret)

def htblFind (fuel : Nat) (tbl : Htbl Obj Key) (key : Key) : Option (Option Obj) := do
  let ret ← tbl.buckets[home par tbl key]?
  findLoop par tbl key fuel ret

def removeLoop (tbl : Htbl Obj Key) (key : Key) : Nat → Slot Obj → Option Obj →
    Option (Slot Obj × Option Obj)
  | 0, _, _ => none
  | _ + 1, p, none => some (p, none)
  | fuel + 1, p, some o =>
      if par.eq (tbl.key o) key then some (p, some o)
      else removeLoop tbl key fuel (.chain o) (tbl.chain o)

def htblRemove (fuel : Nat) (tbl : Htbl Obj Key) (key : Key) :
    Option (Option Obj × Htbl Obj Key) := do
  let bi := home par tbl key
  let o ← tbl.buckets[bi]?
  let (p, o) ← removeLoop par tbl key fuel (.bucket bi) o
  match o with
  | none => return (none, tbl)
  | some o => return (some o, { tbl.write (tbl.chain o) p with size := tbl.size - 1 })

/-- The loop of `iter_next_bucket`, from the bucket `bi` on. -/
def nextBucket : List (Option Obj) → Nat → Option (Nat × Obj)
  | [], _ => none
  | none :: buckets, bi => nextBucket buckets (bi + 1)
  | some o :: _, bi => some (bi, o)

def iterNextBucket (tbl : Htbl Obj Key) (bi cnt : Nat) : Option (Iter Obj) := do
  let (bi, obj) ← nextBucket (tbl.buckets.drop bi) bi
  return ⟨bi, cnt, .bucket bi, obj⟩

/-- `_htbl_iter_first`; the iterator stays unset when the table is empty. -/
def htblIterFirst (tbl : Htbl Obj Key) : Option (Option (Iter Obj)) :=
  if tbl.size = 0 then some none else (iterNextBucket tbl 0 1).map some

/-- `_htbl_iter_next`; `none` inside is its answer `NULL`, which changes nothing. -/
def htblIterNext (tbl : Htbl Obj Key) (it : Iter Obj) : Option (Option (Iter Obj)) :=
  if it.cnt = tbl.size then some none
  else
    match tbl.chain it.obj with
    | some tmp => some (some { it with cnt := it.cnt + 1, ptr := .chain it.obj, obj := tmp })
    | none => (iterNextBucket tbl (it.bi + 1) (it.cnt + 1)).map some

/-- `_htbl_iter_del` -/
def htblIterDel (tbl : Htbl Obj Key) (it : Iter Obj) :
    Option (Option (Iter Obj) × Htbl Obj Key) :=
  let tbl := { tbl with size := tbl.size - 1 }
  if tbl.size < it.cnt then some (none, tbl.write none it.ptr)
  else
    match tbl.chain it.obj with
    | some tmp => some (some { it with obj := tmp }, tbl.write (some tmp) it.ptr)
    | none =>
        let tbl := tbl.write none it.ptr
        (iterNextBucket tbl (it.bi + 1) it.cnt).map fun it => (some it, tbl)

/-! ## The table in use -/

/-- The calls of the table, and a caller who writes to an object of its own. -/
inductive Event (Obj Key : Type)
  | write (o : Obj) (key : Key) (chain : Option Obj)
  | insert (o : Obj) (memory : Bool)
  | find (key : Key)
  | remove (key : Key)
  | iterFirst
  | iterNext
  | iterDel

/-- A table and the caller's iterator, once it has been set. -/
structure User (Obj Key : Type) where
  tbl : Htbl Obj Key
  it : Option (Iter Obj)

/-- The answer of an iterator and the iterator after it. -/
def User.iterated (u : User Obj Key) (it : Option (Iter Obj)) : Option Obj × User Obj Key :=
  (it.map Iter.obj, { u with it := it.or u.it })

/-- An event and its answer. -/
def step (fuel : Nat) (u : User Obj Key) : Event Obj Key → Option (Option Obj × User Obj Key)
  | .write o key chain => some (none, {
      u with
      tbl := { u.tbl.setChain o chain with key := Function.update u.tbl.key o key } })
  | .insert o memory => do
      let tbl ← htblInsert par fuel memory u.tbl o
      return (none, { u with tbl := tbl })
  | .find key => do
      let ret ← htblFind par fuel u.tbl key
      return (ret, u)
  | .remove key => do
      let (ret, tbl) ← htblRemove par fuel u.tbl key
      return (ret, { u with tbl := tbl })
  | .iterFirst => (htblIterFirst u.tbl).map u.iterated
  | .iterNext => do
      let it ← u.it
      let it ← htblIterNext u.tbl it
      return u.iterated it
  | .iterDel => do
      let it ← u.it
      let (it, tbl) ← htblIterDel u.tbl it
      return ({ u with tbl := tbl } : User Obj Key).iterated it

end Btpd.Hashtable
