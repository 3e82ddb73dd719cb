import Btpd.Torrents.Invariant

/-!
# The changes keep the invariant

Each change that the routines make, as a function of the state, and what it does to
the four parts of the invariant.  A part that does not speak of what has changed is
carried over by its `congr` lemma.
-/

namespace Btpd.Torrents

variable {p : Promise} {d d' : Daemon} {tl tp : Nat} {t : Torrent} {hash : Hash}

/-! ## Parts that a change leaves alone -/

theorem Library.congr (lib : Library p d) (tls : d'.tls = d.tls) (nextTl : d'.nextTl = d.nextTl)
    (numtbl : d'.numtbl = d.numtbl) (hashtbl : d'.hashtbl = d.hashtbl)
    (num : ∀ tl, (d'.tlib tl).num = (d.tlib tl).num)
    (hash : ∀ tl, (d'.tlib tl).hash = (d.tlib tl).hash) : Library p d' := by
  constructor
  case tls_lt => rw [tls, nextTl]; exact lib.tls_lt
  case tls_nodup => rw [tls]; exact lib.tls_nodup
  case mem_hashtbl => rw [tls, hashtbl]; exact lib.mem_hashtbl
  case hashtbl_nodup => rw [hashtbl]; exact lib.hashtbl_nodup
  case hash_inj => simp only [tls, hash]; exact lib.hash_inj
  case mem_numtbl => rw [tls, numtbl]; exact lib.mem_numtbl
  case numtbl_nodup => rw [numtbl]; exact lib.numtbl_nodup
  case num_inj => simp only [tls, num]; exact lib.num_inj

/-- The pointers do not depend on more than this. -/
theorem Links.congr (links : Links p d) (tps : d'.tps = d.tps) (tls : d'.tls = d.tls)
    (nextTl : d'.nextTl = d.nextTl) (tp : ∀ tl, (d'.tlib tl).tp = (d.tlib tl).tp)
    (tl : ∀ tp, (d'.torrent tp).tl = (d.torrent tp).tl)
    (ghost : ∀ tp, (d.torrent tp).state = .ghost → (d'.torrent tp).state = .ghost) :
    Links p d' := by
  constructor
  case tl_lt => rw [tps, nextTl]; simp only [tl]; exact links.tl_lt
  case tl_inj => rw [tps]; simp only [tl]; exact links.tl_inj
  case tp_tl => rw [tps, tls]; simp only [tl, tp]; exact links.tp_tl
  case tl_tp =>
    rw [tps, tls]
    simp only [tl, tp]
    intro tl' tlMem tp' points
    obtain ⟨mem, back⟩ := links.tl_tp tl' tlMem tp' points
    refine ⟨mem, back.imp_right fun dangling => ?_⟩
    exact ⟨dangling.1, dangling.2.1, ghost tp' dangling.2.2⟩
  case tp_inj => rw [tls]; simp only [tp]; exact links.tp_inj
  case alive =>
    rw [tps, tls]
    simp only [tl]
    intro tp' mem active
    exact links.alive tp' mem (active.imp_right fun here was => here (ghost tp' was))

/-- Which entries are haunting does not depend on more than this. -/
theorem Daemon.haunting_congr (tp : (d'.tlib tl).tp = (d.tlib tl).tp)
    (torrent : ∀ tp, (d.tlib tl).tp = some tp →
      ((d'.torrent tp).delete = true ∧ (d'.torrent tp).state = .ghost ↔
        (d.torrent tp).delete = true ∧ (d.torrent tp).state = .ghost)) :
    d'.Haunting tl ↔ d.Haunting tl := by
  unfold Haunting
  rw [tp]
  constructor
  · rintro ⟨tp, points, haunts⟩
    exact ⟨tp, points, (torrent tp points).mp haunts⟩
  · rintro ⟨tp, points, haunts⟩
    exact ⟨tp, points, (torrent tp points).mpr haunts⟩

/-- The entry is in the library and not haunting. -/
def Daemon.Housed (d : Daemon) (tl : Nat) : Prop := tl ∈ d.tls ∧ ¬d.Haunting tl

theorem Dirs.mem_iff (dirs : Dirs p d) (kept : p.kept) (hash : Hash) :
    hash ∈ d.dirs ↔ ∃ tl, d.Housed tl ∧ (d.tlib tl).hash = hash := by
  rw [dirs.mem kept hash]
  constructor
  · rintro ⟨tl, mem, hashEq, quiet⟩
    exact ⟨tl, ⟨mem, quiet⟩, hashEq⟩
  · rintro ⟨tl, ⟨mem, quiet⟩, hashEq⟩
    exact ⟨tl, mem, hashEq, quiet⟩

theorem Dirs.of_housed (nodup : d.dirs.Nodup)
    (mem : p.kept → ∀ hash, hash ∈ d.dirs ↔ ∃ tl, d.Housed tl ∧ (d.tlib tl).hash = hash) :
    Dirs p d where
  nodup := nodup
  mem kept hash := by
    rw [mem kept hash]
    constructor
    · rintro ⟨tl, ⟨mem, quiet⟩, hashEq⟩
      exact ⟨tl, mem, hashEq, quiet⟩
    · rintro ⟨tl, mem, hashEq, quiet⟩
      exact ⟨tl, ⟨mem, quiet⟩, hashEq⟩

/-- The directories stay right when the same entries are housed. -/
theorem Dirs.congr (dirs : Dirs p d) (same : d'.dirs = d.dirs)
    (hash : ∀ tl, (d'.tlib tl).hash = (d.tlib tl).hash)
    (housed : p.kept → ∀ tl, d'.Housed tl ↔ d.Housed tl) : Dirs p d' := by
  refine .of_housed (same ▸ dirs.nodup) fun kept h => ?_
  rw [same, dirs.mem_iff kept]
  simp only [hash, housed kept]

/-- A directory goes with the entry that was housed there. -/
theorem Dirs.erase (dirs : Dirs p d) (lib : Library p d) (mem : tl ∈ d.tls)
    (erased : d'.dirs = d.dirs.erase (d.tlib tl).hash)
    (hash : ∀ tl, (d'.tlib tl).hash = (d.tlib tl).hash)
    (housed : p.kept → ∀ tl', d'.Housed tl' ↔ d.Housed tl' ∧ tl' ≠ tl) : Dirs p d' := by
  refine .of_housed (erased ▸ dirs.nodup.erase _) fun kept h => ?_
  rw [erased, dirs.nodup.mem_erase_iff, dirs.mem_iff kept]
  simp only [hash, housed kept]
  constructor
  · rintro ⟨other, tl', house, hashEq⟩
    refine ⟨tl', ⟨house, fun here => other ?_⟩, hashEq⟩
    rw [← hashEq, here]
  · rintro ⟨tl', ⟨house, other⟩, hashEq⟩
    refine ⟨fun same => other ?_, tl', house, hashEq⟩
    exact lib.hash_inj tl' house.1 tl mem (hashEq.trans same)

/-- The times, the flags and the number that comes next are not in the invariant. -/
theorem Inv.idle (inv : Inv p d) (mNextnum mTsave btpdSeconds : Nat)
    (mSignal mShutdown mGhost exited : Bool) :
    Inv p { d with
      mNextnum := mNextnum
      mTsave := mTsave
      btpdSeconds := btpdSeconds
      mSignal := mSignal
      mShutdown := mShutdown
      mGhost := mGhost
      exited := exited } where
  library := inv.library.congr rfl rfl rfl rfl (fun _ => rfl) fun _ => rfl
  roster := by
    rcases inv.roster with ⟨h1, h2, h3, h4, h5, h6, h7, h8, h9, h10, h11⟩
    exact ⟨h1, h2, h3, h4, h5, h6, h7, h8, h9, h10, h11⟩
  links := by
    rcases inv.links with ⟨h1, h2, h3, h4, h5, h6⟩
    exact ⟨h1, h2, h3, h4, h5, h6⟩
  dirs := ⟨inv.dirs.nodup, inv.dirs.mem⟩

/-! ## A torrent changes -/

/-- A torrent has changed. -/
def Daemon.changed (d : Daemon) (tp : Nat) (t : Torrent) : Daemon :=
  { d with torrent := Function.update d.torrent tp t }

@[simp]
theorem Daemon.changed_self : (d.changed tp t).torrent tp = t := Function.update_self ..

theorem Daemon.changed_of_ne {tp' : Nat} (other : tp' ≠ tp) :
    (d.changed tp t).torrent tp' = d.torrent tp' := Function.update_of_ne other ..

/-- What does not change about the torrent does not change about any. -/
theorem Daemon.changed_same {α : Type} {f : Torrent → α} (same : f t = f (d.torrent tp))
    (tp' : Nat) : f ((d.changed tp t).torrent tp') = f (d.torrent tp') := by
  by_cases here : tp' = tp
  · rw [here, changed_self, same]
  · rw [changed_of_ne here]

theorem Links.changed (links : Links p d) (tl : t.tl = (d.torrent tp).tl)
    (ghost : (d.torrent tp).state = .ghost → t.state = .ghost) : Links p (d.changed tp t) := by
  refine links.congr rfl rfl rfl (fun _ => rfl) (Daemon.changed_same tl) fun tp' was => ?_
  by_cases here : tp' = tp
  · rw [here] at was ⊢
    rw [Daemon.changed_self]
    exact ghost was
  · rw [Daemon.changed_of_ne here]
    exact was

/-- What a torrent that is on the list must be. -/
structure Torrent.Right (t : Torrent) : Prop where
  quiet : t.state = .ghost → t.netActive = false ∧ t.cm = .inactive
  running : t.state ≠ .stopping
  deleted : t.delete = true → t.state = .ghost

theorem Roster.right (roster : Roster d) (mem : tp ∈ d.tps) : (d.torrent tp).Right :=
  ⟨roster.ghost_quiet tp mem, roster.not_stopping tp mem, roster.deleted tp mem⟩

/-- The roster, from what it says of each torrent. -/
theorem Roster.of_right (tps_lt : ∀ tp ∈ d.tps, tp < d.nextTp) (tps_nodup : d.tps.Nodup)
    (mem_mTorrents : ∀ tp, tp ∈ d.mTorrents ↔ tp ∈ d.tps) (mTorrents_nodup : d.mTorrents.Nodup)
    (ntorrents : d.mNtorrents = d.mTorrents.length)
    (nghosts : d.mNghosts = d.mTorrents.countP d.ghost)
    (savetp_mem : ∀ tp, d.mSavetp = some tp → tp ∈ d.mTorrents)
    (savetp_none : d.mSavetp = none → d.mTorrents = [])
    (right : ∀ tp ∈ d.tps, (d.torrent tp).Right) : Roster d :=
  ⟨tps_lt, tps_nodup, mem_mTorrents, mTorrents_nodup, ntorrents, nghosts, savetp_mem, savetp_none,
    fun tp mem => (right tp mem).quiet, fun tp mem => (right tp mem).running,
    fun tp mem => (right tp mem).deleted⟩

theorem Daemon.changed_right (each : ∀ tp ∈ d.tps, (d.torrent tp).Right) (right : t.Right)
    (tp' : Nat) (mem : tp' ∈ d.tps) : ((d.changed tp t).torrent tp').Right := by
  by_cases here : tp' = tp
  · rw [here, changed_self]
    exact right
  · rw [changed_of_ne here]
    exact each tp' mem

/-- A torrent changes that does not become a ghost. -/
theorem Roster.changed (roster : Roster d)
    (ghost : t.state = .ghost ↔ (d.torrent tp).state = .ghost) (right : t.Right) :
    Roster (d.changed tp t) := by
  have same : (d.changed tp t).ghost = d.ghost := by
    funext tp'
    exact Daemon.changed_same (f := fun t => decide (t.state = .ghost))
      (decide_eq_decide.mpr ghost) tp'
  rcases roster with ⟨h1, h2, h3, h4, h5, h6, h7, h8, h9, h10, h11⟩
  refine .of_right h1 h2 h3 h4 h5 ?_ h7 h8 ?_
  · rw [same]
    exact h6
  · exact Daemon.changed_right (fun tp mem => ⟨h9 tp mem, h10 tp mem, h11 tp mem⟩) right

/-- A torrent changes that stays what it is for the library. -/
theorem Inv.changed (inv : Inv p d) (tl : t.tl = (d.torrent tp).tl)
    (ghost : t.state = .ghost ↔ (d.torrent tp).state = .ghost) (right : t.Right)
    (delete : p.kept → t.delete = (d.torrent tp).delete) : Inv p (d.changed tp t) where
  library := inv.library.congr rfl rfl rfl rfl (fun _ => rfl) fun _ => rfl
  roster := inv.roster.changed ghost right
  links := inv.links.changed tl ghost.mpr
  dirs := inv.dirs.congr rfl (fun _ => rfl) fun kept _ =>
    and_congr_right fun _ => not_congr <| Daemon.haunting_congr rfl fun tp' _ => by
      by_cases here : tp' = tp
      · rw [here, Daemon.changed_self, delete kept, ghost]
      · rw [Daemon.changed_of_ne here]

/-! ## A torrent becomes a ghost -/

/-- A torrent has become a ghost. -/
def Daemon.ghosted (d : Daemon) (tp : Nat) (t : Torrent) : Daemon :=
  { d.changed tp t with
    mNghosts := d.mNghosts + 1
    dirs := if t.delete = true then d.dirs.erase (d.tlib t.tl).hash else d.dirs }

/-- A torrent that is not a ghost has its entry. -/
theorem Inv.entry_of_active (inv : Inv p d) (mem : tp ∈ d.tps)
    (active : (d.torrent tp).state ≠ .ghost) :
    (d.torrent tp).tl ∈ d.tls ∧ (d.tlib (d.torrent tp).tl).tp = some tp := by
  have alive := inv.links.alive tp mem (.inr active)
  exact ⟨alive, inv.links.tp_tl tp mem alive⟩

theorem Roster.ghosted (roster : Roster d) (mem : tp ∈ d.tps)
    (active : (d.torrent tp).state ≠ .ghost) (ghost : t.state = .ghost) (right : t.Right) :
    Roster (d.ghosted tp t) := by
  have counted : d.mTorrents.countP (d.ghosted tp t).ghost = d.mTorrents.countP d.ghost + 1 := by
    refine Count.countP_succ roster.mTorrents_nodup ((roster.mem_mTorrents tp).mpr mem)
      (decide_eq_false active) ?_ fun tp' _ other => ?_
    · exact decide_eq_true ((congrArg Torrent.state Daemon.changed_self).trans ghost)
    · exact congrArg (fun t : Torrent => decide (t.state = .ghost)) (Daemon.changed_of_ne other)
  rcases roster with ⟨h1, h2, h3, h4, h5, h6, h7, h8, h9, h10, h11⟩
  refine .of_right h1 h2 h3 h4 h5 ?_ h7 h8 ?_
  · exact (congrArg (· + 1) h6).trans counted.symm
  · exact Daemon.changed_right (fun tp mem => ⟨h9 tp mem, h10 tp mem, h11 tp mem⟩) right

/-- Of the entries only that of the torrent can start haunting. -/
theorem Inv.haunting_ghosted (inv : Inv p d) (mem : tp ∈ d.tps)
    (active : (d.torrent tp).state ≠ .ghost) (tlEq : t.tl = (d.torrent tp).tl)
    (ghost : t.state = .ghost) (tlMem : tl ∈ d.tls) :
    (d.ghosted tp t).Haunting tl ↔ d.Haunting tl ∨ tl = t.tl ∧ t.delete = true := by
  obtain ⟨entry, points⟩ := inv.entry_of_active mem active
  rw [← tlEq] at entry points
  by_cases here : tl = t.tl
  · subst here
    have quiet : ¬d.Haunting t.tl := by
      rintro ⟨tp', points', _, was⟩
      rw [points] at points'
      cases points'
      exact active was
    constructor
    · rintro ⟨tp', points', delete, -⟩
      obtain rfl : tp = tp' := Option.some.inj (points.symm.trans points')
      exact .inr ⟨rfl, (congrArg Torrent.delete Daemon.changed_self).symm.trans delete⟩
    · rintro (haunts | ⟨-, delete⟩)
      · exact absurd haunts quiet
      · exact ⟨tp, points, (congrArg Torrent.delete Daemon.changed_self).trans delete,
          (congrArg Torrent.state Daemon.changed_self).trans ghost⟩
  · have others : (d.ghosted tp t).Haunting tl ↔ d.Haunting tl := by
      refine Daemon.haunting_congr rfl fun tp' points' => ?_
      have other : tp' ≠ tp := fun same =>
        here (inv.links.tp_inj tl tlMem t.tl entry tp (same ▸ points') points)
      rw [show (d.ghosted tp t).torrent tp' = d.torrent tp' from Daemon.changed_of_ne other]
    rw [others]
    simp [here]

theorem Inv.ghosted (inv : Inv p d) (mem : tp ∈ d.tps)
    (active : (d.torrent tp).state ≠ .ghost) (tl : t.tl = (d.torrent tp).tl)
    (ghost : t.state = .ghost) (right : t.Right) : Inv p (d.ghosted tp t) where
  library := inv.library.congr rfl rfl rfl rfl (fun _ => rfl) fun _ => rfl
  roster := inv.roster.ghosted mem active ghost right
  links := (inv.links.changed tl fun _ => ghost).congr rfl rfl rfl (fun _ => rfl) (fun _ => rfl)
    fun _ was => was
  dirs := by
    have haunting := fun tl' (tlMem : tl' ∈ d.tls) =>
      inv.haunting_ghosted mem active tl ghost tlMem
    by_cases delete : t.delete = true
    · refine inv.dirs.erase inv.library (tl ▸ (inv.entry_of_active mem active).1)
        (if_pos delete) (fun _ => rfl) fun _ tl' => ?_
      constructor
      · rintro ⟨tlMem, quiet⟩
        rw [haunting tl' tlMem, not_or] at quiet
        exact ⟨⟨tlMem, quiet.1⟩, fun here => quiet.2 ⟨here, delete⟩⟩
      · rintro ⟨⟨tlMem, quiet⟩, other⟩
        refine ⟨tlMem, ?_⟩
        rw [haunting tl' tlMem, not_or]
        exact ⟨quiet, fun here => other here.1⟩
    · refine inv.dirs.congr (if_neg delete) (fun _ => rfl) fun _ tl' => ?_
      refine and_congr_right fun tlMem => not_congr ?_
      rw [haunting tl' tlMem]
      simp [delete]

/-! ## An entry goes -/

/-- The state after `tlib_kill`. -/
def Daemon.removed (d : Daemon) (tl : Nat) : Daemon :=
  { d with
    numtbl := d.numtbl.eraseP fun tl' => decide ((d.tlib tl').num = (d.tlib tl).num)
    hashtbl := d.hashtbl.eraseP fun tl' => decide ((d.tlib tl').hash = (d.tlib tl).hash)
    tls := d.tls.erase tl }

/-- A key that names one element of a list removes that element. -/
theorem eraseP_eq_erase {xs : List Nat} {x : Nat} {q : Nat → Bool}
    (names : ∀ y ∈ xs, q y = true ↔ y = x) : xs.eraseP q = xs.erase x := by
  induction xs with
  | nil => rfl
  | cons y ys ih =>
      by_cases here : y = x
      · rw [List.eraseP_cons_of_pos ((names y List.mem_cons_self).mpr here), here,
          List.erase_cons_head]
      · rw [List.eraseP_cons_of_neg (mt (names y List.mem_cons_self).mp here),
          List.erase_cons_tail (by simpa using here),
          ih fun z mem => names z (List.mem_cons_of_mem y mem)]

theorem Library.mem_removed (lib : Library p d) {tl' : Nat} :
    tl' ∈ (d.removed tl).tls ↔ tl' ≠ tl ∧ tl' ∈ d.tls := lib.tls_nodup.mem_erase_iff

theorem Library.removed (lib : Library p d) (mem : tl ∈ d.tls) : Library p (d.removed tl) := by
  have hashes : (d.removed tl).hashtbl = d.hashtbl.erase tl := by
    refine eraseP_eq_erase fun tl' mem' => ?_
    rw [decide_eq_true_iff]
    constructor
    · exact lib.hash_inj tl' ((lib.mem_hashtbl tl').mp mem') tl mem
    · rintro rfl
      rfl
  have nums : p.numbered → (d.removed tl).numtbl = d.numtbl.erase tl := by
    intro numbered
    refine eraseP_eq_erase fun tl' mem' => ?_
    rw [decide_eq_true_iff]
    constructor
    · exact lib.num_inj numbered tl' ((lib.mem_numtbl numbered tl').mp mem') tl mem
    · rintro rfl
      rfl
  have old : ∀ tl' ∈ (d.removed tl).tls, tl' ∈ d.tls := fun tl' mem' => List.mem_of_mem_erase mem'
  constructor
  case tls_lt => exact fun tl' mem' => lib.tls_lt tl' (old tl' mem')
  case tls_nodup => exact lib.tls_nodup.erase tl
  case mem_hashtbl =>
    intro tl'
    rw [hashes, lib.hashtbl_nodup.mem_erase_iff, lib.mem_removed, lib.mem_hashtbl]
  case hashtbl_nodup =>
    rw [hashes]
    exact lib.hashtbl_nodup.erase tl
  case hash_inj =>
    exact fun tl1 mem1 tl2 mem2 => lib.hash_inj tl1 (old tl1 mem1) tl2 (old tl2 mem2)
  case mem_numtbl =>
    intro numbered tl'
    rw [nums numbered, (lib.numtbl_nodup numbered).mem_erase_iff, lib.mem_removed,
      lib.mem_numtbl numbered]
  case numtbl_nodup =>
    intro numbered
    rw [nums numbered]
    exact (lib.numtbl_nodup numbered).erase tl
  case num_inj =>
    exact fun numbered tl1 mem1 tl2 mem2 =>
      lib.num_inj numbered tl1 (old tl1 mem1) tl2 (old tl2 mem2)

/-- The pointers stay right when an entry goes that no torrent needs. -/
theorem Links.removed (links : Links p d) (lib : Library p d)
    (unused : ∀ tp ∈ d.tps, (p.linked ∨ (d.torrent tp).state ≠ .ghost) →
      (d.torrent tp).tl ≠ tl) : Links p (d.removed tl) := by
  have old : ∀ tl' ∈ (d.removed tl).tls, tl' ∈ d.tls := fun tl' mem => List.mem_of_mem_erase mem
  constructor
  case tl_lt => exact links.tl_lt
  case tl_inj => exact links.tl_inj
  case tp_tl => exact fun tp mem entry => links.tp_tl tp mem (old _ entry)
  case tl_tp =>
    intro tl' mem tp points
    obtain ⟨tpMem, back⟩ := links.tl_tp tl' (old tl' mem) tp points
    refine ⟨tpMem, back.imp_right fun dangling => ?_⟩
    exact ⟨dangling.1, fun entry => dangling.2.1 (old _ entry), dangling.2.2⟩
  case tp_inj => exact fun tl1 mem1 tl2 mem2 => links.tp_inj tl1 (old tl1 mem1) tl2 (old tl2 mem2)
  case alive =>
    intro tp mem active
    exact lib.mem_removed.mpr ⟨unused tp mem active, links.alive tp mem active⟩

/-- The state after `tlib_del` on an entry without a torrent. -/
def Daemon.deleted (d : Daemon) (tl : Nat) : Daemon :=
  { d.removed tl with dirs := d.dirs.erase (d.tlib tl).hash }

theorem Inv.deleted (inv : Inv p d) (mem : tl ∈ d.tls) (free : (d.tlib tl).tp = none) :
    Inv p (d.deleted tl) where
  library := (inv.library.removed mem).congr rfl rfl rfl rfl (fun _ => rfl) fun _ => rfl
  roster := by
    rcases inv.roster with ⟨h1, h2, h3, h4, h5, h6, h7, h8, h9, h10, h11⟩
    exact ⟨h1, h2, h3, h4, h5, h6, h7, h8, h9, h10, h11⟩
  links := by
    have links : Links p (d.removed tl) := by
      refine inv.links.removed inv.library fun tp tpMem active here => ?_
      have points := inv.links.tp_tl tp tpMem (inv.links.alive tp tpMem active)
      rw [here] at points
      exact absurd (points.symm.trans free) (Option.some_ne_none tp)
    exact links.congr rfl rfl rfl (fun _ => rfl) (fun _ => rfl) fun _ ghost => ghost
  dirs := inv.dirs.erase inv.library mem rfl (fun _ => rfl) fun _ tl' => by
    have same : (d.deleted tl).Haunting tl' ↔ d.Haunting tl' :=
      Daemon.haunting_congr rfl fun _ _ => Iff.rfl
    unfold Daemon.Housed
    rw [same, show (d.deleted tl).tls = (d.removed tl).tls from rfl, inv.library.mem_removed]
    constructor
    · rintro ⟨⟨other, mem'⟩, quiet⟩
      exact ⟨⟨mem', quiet⟩, other⟩
    · rintro ⟨⟨mem', quiet⟩, other⟩
      exact ⟨⟨other, mem'⟩, quiet⟩

/-! ## A torrent goes -/

/-- What `torrent_kill` does to the list of the torrents. -/
def Daemon.left (d : Daemon) (tp : Nat) : Daemon :=
  { d with
    mNghosts := if (d.torrent tp).state = .ghost then d.mNghosts - 1 else d.mNghosts
    mNtorrents := d.mNtorrents - 1
    mTorrents := d.mTorrents.erase tp
    mSavetp := if d.mSavetp = some tp then
      savetpAfter (d.mTorrents.erase tp) (next tp d.mTorrents) else d.mSavetp
    tps := d.tps.erase tp }

theorem mem_of_next {tps : List Nat} {tp' : Nat} (found : next tp tps = some tp') :
    tp' ∈ tps := by
  induction tps with
  | nil => cases found
  | cons x xs ih =>
      unfold next at found
      by_cases here : x = tp
      · rw [if_pos here] at found
        exact List.mem_cons_of_mem x (List.mem_of_mem_head? found)
      · rw [if_neg here] at found
        exact List.mem_cons_of_mem x (ih found)

/-- What follows on a list is not the element itself. -/
theorem next_ne {tps : List Nat} {tp' : Nat} (nodup : tps.Nodup)
    (found : next tp tps = some tp') : tp' ≠ tp := by
  induction tps with
  | nil => cases found
  | cons x xs ih =>
      obtain ⟨notMem, nodup⟩ := List.nodup_cons.mp nodup
      unfold next at found
      by_cases here : x = tp
      · rw [if_pos here] at found
        rintro rfl
        exact notMem (here ▸ List.mem_of_mem_head? found)
      · rw [if_neg here] at found
        exact ih nodup found

/-- `m_savetp` moves on to a torrent of the list. -/
theorem savetpAfter_mem {tps : List Nat} {o : Option Nat} (after : ∀ tp, o = some tp → tp ∈ tps)
    (found : savetpAfter tps o = some tp) : tp ∈ tps := by
  unfold savetpAfter at found
  split at found
  · exact List.mem_of_mem_head? found
  · cases found
    exact after tp rfl

theorem savetpAfter_none {tps : List Nat} {o : Option Nat} (none : savetpAfter tps o = none) :
    tps = [] := by
  unfold savetpAfter at none
  split at none
  · exact List.head?_eq_none_iff.mp none
  · cases none

theorem Roster.mem_left (roster : Roster d) {tp' : Nat} :
    tp' ∈ (d.left tp).tps ↔ tp' ≠ tp ∧ tp' ∈ d.tps := roster.tps_nodup.mem_erase_iff

theorem Roster.left (roster : Roster d) (mem : tp ∈ d.tps) : Roster (d.left tp) := by
  have linked := (roster.mem_mTorrents tp).mpr mem
  have old : ∀ tp' ∈ (d.left tp).tps, tp' ∈ d.tps := fun tp' mem' => List.mem_of_mem_erase mem'
  have listed : ∀ tp', tp' ∈ (d.left tp).mTorrents ↔ tp' ≠ tp ∧ tp' ∈ d.mTorrents := fun tp' =>
    roster.mTorrents_nodup.mem_erase_iff
  refine .of_right (fun tp' mem' => roster.tps_lt tp' (old tp' mem')) (roster.tps_nodup.erase tp)
    ?_ (roster.mTorrents_nodup.erase tp) ?_ ?_ ?_ ?_ fun tp' mem' => roster.right (old tp' mem')
  · intro tp'
    rw [listed, roster.mem_mTorrents, roster.mem_left]
  · change d.mNtorrents - 1 = (d.mTorrents.erase tp).length
    rw [List.length_erase_of_mem linked, roster.ntorrents]
  · change (if _ then _ else _) = (d.mTorrents.erase tp).countP d.ghost
    rw [List.countP_erase, roster.nghosts]
    by_cases ghost : (d.torrent tp).state = .ghost
    · have counted : d.ghost tp = true := decide_eq_true ghost
      rw [if_pos ghost, if_pos ⟨linked, counted⟩]
    · have uncounted : ¬d.ghost tp = true := mt of_decide_eq_true ghost
      rw [if_neg ghost, if_neg fun both => uncounted both.2, Nat.sub_zero]
  · intro tp' saved
    by_cases here : d.mSavetp = some tp
    · rw [show (d.left tp).mSavetp = _ from if_pos here] at saved
      refine savetpAfter_mem (fun tp' there => ?_) saved
      exact (listed tp').mpr ⟨next_ne roster.mTorrents_nodup there, mem_of_next there⟩
    · rw [show (d.left tp).mSavetp = _ from if_neg here] at saved
      exact (listed tp').mpr ⟨fun same => here (same ▸ saved), roster.savetp_mem tp' saved⟩
  · intro none
    by_cases here : d.mSavetp = some tp
    · rw [show (d.left tp).mSavetp = _ from if_pos here] at none
      exact savetpAfter_none none
    · rw [show (d.left tp).mSavetp = _ from if_neg here] at none
      rw [roster.savetp_none none] at linked
      cases linked

/-- The pointers stay right when a torrent goes and its entry goes or lets go of it. -/
theorem Links.detached (links : Links p d) (roster : Roster d)
    (mem : tp ∈ d.tps) (entry : (d.torrent tp).tl ∈ d.tls) (torrent : d'.torrent = d.torrent)
    (tps : d'.tps = d.tps.erase tp) (nextTl : d'.nextTl = d.nextTl)
    (old : ∀ tl ∈ d'.tls, tl ∈ d.tls)
    (stays : ∀ tl ∈ d.tls, tl ≠ (d.torrent tp).tl → tl ∈ d'.tls)
    (same : ∀ tl, tl ≠ (d.torrent tp).tl → (d'.tlib tl).tp = (d.tlib tl).tp)
    (gone : (d.torrent tp).tl ∈ d'.tls → (d'.tlib (d.torrent tp).tl).tp = none) :
    Links p d' := by
  have others : ∀ tp', tp' ∈ d'.tps ↔ tp' ≠ tp ∧ tp' ∈ d.tps := by
    intro tp'
    rw [tps, roster.tps_nodup.mem_erase_iff]
  have apart : ∀ tp' ∈ d'.tps, (d.torrent tp').tl ≠ (d.torrent tp).tl := fun tp' mem' here =>
    ((others tp').mp mem').1 (links.tl_inj tp' ((others tp').mp mem').2 tp mem here)
  have points := links.tp_tl tp mem entry
  have kept : ∀ tl ∈ d'.tls, ∀ tp', (d'.tlib tl).tp = some tp' →
      tl ≠ (d.torrent tp).tl ∧ (d.tlib tl).tp = some tp' := by
    intro tl tlMem tp' points'
    have other : tl ≠ (d.torrent tp).tl := by
      rintro rfl
      exact absurd (points'.symm.trans (gone tlMem)) (Option.some_ne_none tp')
    exact ⟨other, (same tl other).symm.trans points'⟩
  constructor
  case tl_lt =>
    intro tp' mem'
    rw [torrent, nextTl]
    exact links.tl_lt tp' ((others tp').mp mem').2
  case tl_inj =>
    intro tp1 mem1 tp2 mem2
    rw [torrent]
    exact links.tl_inj tp1 ((others tp1).mp mem1).2 tp2 ((others tp2).mp mem2).2
  case tp_tl =>
    intro tp' mem' entry'
    rw [torrent] at entry' ⊢
    rw [same _ (apart tp' mem')]
    exact links.tp_tl tp' ((others tp').mp mem').2 (old _ entry')
  case tl_tp =>
    intro tl tlMem tp' points'
    obtain ⟨other, points'⟩ := kept tl tlMem tp' points'
    obtain ⟨mem', back⟩ := links.tl_tp tl (old tl tlMem) tp' points'
    have alive : tp' ≠ tp := by
      rintro rfl
      exact other (links.tp_inj tl (old tl tlMem) _ entry _ points' points)
    rw [torrent]
    refine ⟨(others tp').mpr ⟨alive, mem'⟩, back.imp_right fun dangling => ?_⟩
    exact ⟨dangling.1, fun entry' => dangling.2.1 (old _ entry'), dangling.2.2⟩
  case tp_inj =>
    intro tl1 mem1 tl2 mem2 tp' points1 points2
    exact links.tp_inj tl1 (old tl1 mem1) tl2 (old tl2 mem2) tp' (kept tl1 mem1 tp' points1).2
      (kept tl2 mem2 tp' points2).2
  case alive =>
    intro tp' mem' active
    rw [torrent] at active ⊢
    exact stays _ (links.alive tp' ((others tp').mp mem').2 active) (apart tp' mem')

/-- The entry lets go of its torrent. -/
def Daemon.unlinked (d : Daemon) (tl : Nat) : Daemon :=
  { d with tlib := Function.update d.tlib tl { d.tlib tl with tp := none } }

theorem Daemon.unlinked_self : (d.unlinked tl).tlib tl = { d.tlib tl with tp := none } :=
  Function.update_self ..

theorem Daemon.unlinked_tp : ((d.unlinked tl).tlib tl).tp = none := by rw [unlinked_self]

/-- What the pointer does not change about the entry does not change about any. -/
theorem Daemon.unlinked_same {α : Type} {f : Tlib → α}
    (same : f { d.tlib tl with tp := none } = f (d.tlib tl)) (tl' : Nat) :
    f ((d.unlinked tl).tlib tl') = f (d.tlib tl') := by
  by_cases here : tl' = tl
  · rw [here, unlinked_self, same]
  · exact congrArg f (Function.update_of_ne here ..)

theorem Daemon.unlinked_of_ne {tl' : Nat} (other : tl' ≠ tl) :
    (d.unlinked tl).tlib tl' = d.tlib tl' := Function.update_of_ne other ..

/-- The state after `torrent_kill`. -/
def Daemon.killed (d : Daemon) (tp : Nat) : Daemon :=
  if (d.torrent tp).delete = true then (d.left tp).removed (d.torrent tp).tl
  else (d.left tp).unlinked (d.torrent tp).tl

theorem Roster.congr_tlib (roster : Roster d) (tlib : Nat → Tlib) (tls numtbl hashtbl : List Nat) :
    Roster { d with tlib := tlib, tls := tls, numtbl := numtbl, hashtbl := hashtbl } := by
  rcases roster with ⟨h1, h2, h3, h4, h5, h6, h7, h8, h9, h10, h11⟩
  exact ⟨h1, h2, h3, h4, h5, h6, h7, h8, h9, h10, h11⟩

/-- The directories stay right when a torrent goes and its entry goes or lets go of it. -/
theorem Dirs.detached (dirs : Dirs p d) (tl : Nat) (torrent : d'.torrent = d.torrent)
    (same : d'.dirs = d.dirs) (hash : ∀ tl, (d'.tlib tl).hash = (d.tlib tl).hash)
    (tls : ∀ tl', tl' ≠ tl → (tl' ∈ d'.tls ↔ tl' ∈ d.tls))
    (tp : ∀ tl', tl' ≠ tl → (d'.tlib tl').tp = (d.tlib tl').tp)
    (housed : d'.Housed tl ↔ d.Housed tl) : Dirs p d' := by
  refine dirs.congr same hash fun _ tl' => ?_
  by_cases here : tl' = tl
  · rw [here]
    exact housed
  · refine and_congr (tls tl' here) (not_congr ?_)
    exact Daemon.haunting_congr (tp tl' here) fun tp' _ => by rw [torrent]

theorem Inv.killed (inv : Inv p d) (mem : tp ∈ d.tps) (entry : (d.torrent tp).tl ∈ d.tls) :
    Inv p (d.killed tp) := by
  have points := inv.links.tp_tl tp mem entry
  have library : Library p (d.left tp) :=
    inv.library.congr rfl rfl rfl rfl (fun _ => rfl) fun _ => rfl
  unfold Daemon.killed
  by_cases delete : (d.torrent tp).delete = true
  · rw [if_pos delete]
    have haunts : d.Haunting (d.torrent tp).tl :=
      ⟨tp, points, delete, inv.roster.deleted tp mem delete⟩
    have tls : ∀ tl', tl' ∈ ((d.left tp).removed (d.torrent tp).tl).tls ↔
        tl' ≠ (d.torrent tp).tl ∧ tl' ∈ d.tls := fun tl' => library.mem_removed
    constructor
    case library => exact library.removed entry
    case roster => exact (inv.roster.left mem).congr_tlib d.tlib _ _ _
    case links =>
      refine inv.links.detached inv.roster mem entry rfl rfl rfl
        (fun tl' mem' => ((tls tl').mp mem').2) (fun tl' mem' other => (tls tl').mpr ⟨other, mem'⟩)
        (fun _ _ => rfl) fun there => ?_
      exact absurd rfl ((tls _).mp there).1
    case dirs =>
      refine inv.dirs.detached (d.torrent tp).tl rfl rfl (fun _ => rfl)
        (fun tl' other => (tls tl').trans (and_iff_right other)) (fun _ _ => rfl) ?_
      constructor
      · rintro ⟨there, -⟩
        exact absurd rfl ((tls _).mp there).1
      · rintro ⟨-, quiet⟩
        exact absurd haunts quiet
  · rw [if_neg delete]
    constructor
    case library =>
      exact library.congr rfl rfl rfl rfl (Daemon.unlinked_same (f := Tlib.num) rfl)
        (Daemon.unlinked_same (f := Tlib.hash) rfl)
    case roster => exact (inv.roster.left mem).congr_tlib _ d.tls d.numtbl d.hashtbl
    case links =>
      refine inv.links.detached inv.roster mem entry rfl rfl rfl
        (fun _ mem' => mem') (fun _ mem' _ => mem') (fun tl' other => ?_) fun _ => ?_
      · exact congrArg Tlib.tp (Daemon.unlinked_of_ne other)
      · exact Daemon.unlinked_tp
    case dirs =>
      refine inv.dirs.detached (d.torrent tp).tl rfl rfl
        (Daemon.unlinked_same (f := Tlib.hash) rfl) (fun _ _ => Iff.rfl)
        (fun tl' other => congrArg Tlib.tp (Daemon.unlinked_of_ne other)) ?_
      refine and_congr_right fun _ => iff_of_true ?_ ?_
      · rintro ⟨tp', points', -⟩
        exact absurd (points'.symm.trans Daemon.unlinked_tp) (Option.some_ne_none tp')
      · rintro ⟨tp', points', deleted, -⟩
        rw [points] at points'
        cases points'
        exact delete deleted

/-! ## A torrent starts -/

/-- The state after the start of a torrent. -/
def Daemon.created (d : Daemon) (t : Torrent) : Daemon :=
  { d with
    torrent := Function.update d.torrent d.nextTp t
    tps := d.nextTp :: d.tps
    nextTp := d.nextTp + 1
    tlib := Function.update d.tlib t.tl { d.tlib t.tl with tp := some d.nextTp }
    mTorrents := d.mTorrents ++ [d.nextTp]
    mNtorrents := d.mNtorrents + 1
    mSavetp := if d.mNtorrents = 0 then some d.nextTp else d.mSavetp }

theorem Daemon.created_torrent_self : (d.created t).torrent d.nextTp = t :=
  Function.update_self ..

theorem Daemon.created_torrent_of_ne (other : tp ≠ d.nextTp) :
    (d.created t).torrent tp = d.torrent tp := Function.update_of_ne other ..

theorem Daemon.created_tlib_self :
    (d.created t).tlib t.tl = { d.tlib t.tl with tp := some d.nextTp } := Function.update_self ..

theorem Daemon.created_tlib_of_ne (other : tl ≠ t.tl) : (d.created t).tlib tl = d.tlib tl :=
  Function.update_of_ne other ..

theorem Daemon.created_same {α : Type} {f : Tlib → α}
    (same : f { d.tlib t.tl with tp := some d.nextTp } = f (d.tlib t.tl)) (tl : Nat) :
    f ((d.created t).tlib tl) = f (d.tlib tl) := by
  by_cases here : tl = t.tl
  · rw [here, created_tlib_self, same]
  · rw [created_tlib_of_ne here]

theorem Roster.created (roster : Roster d) (active : t.state ≠ .ghost) (right : t.Right) :
    Roster (d.created t) := by
  have fresh : d.nextTp ∉ d.tps := fun mem => Nat.lt_irrefl _ (roster.tps_lt d.nextTp mem)
  have unlisted : d.nextTp ∉ d.mTorrents := mt (roster.mem_mTorrents d.nextTp).mp fresh
  have old : ∀ tp ∈ d.tps, (d.created t).torrent tp = d.torrent tp := fun tp mem =>
    Daemon.created_torrent_of_ne fun here => fresh (here ▸ mem)
  refine .of_right ?_ (List.nodup_cons.mpr ⟨fresh, roster.tps_nodup⟩) ?_ ?_ ?_ ?_ ?_ ?_ ?_
  · intro tp mem
    rcases List.mem_cons.mp mem with rfl | mem
    · exact Nat.lt_succ_self _
    · exact Nat.lt_succ_of_lt (roster.tps_lt tp mem)
  · intro tp
    change tp ∈ d.mTorrents ++ [d.nextTp] ↔ tp ∈ d.nextTp :: d.tps
    rw [List.mem_append, List.mem_singleton, List.mem_cons, roster.mem_mTorrents, or_comm]
  · refine List.nodup_append.mpr ⟨roster.mTorrents_nodup, List.nodup_singleton _, ?_⟩
    rintro tp mem _ same rfl
    exact unlisted (List.mem_singleton.mp same ▸ mem)
  · change d.mNtorrents + 1 = (d.mTorrents ++ [d.nextTp]).length
    rw [List.length_append, List.length_singleton, roster.ntorrents]
  · change d.mNghosts = (d.mTorrents ++ [d.nextTp]).countP (d.created t).ghost
    have last : (d.created t).ghost d.nextTp = false := by
      unfold Daemon.ghost
      rw [Daemon.created_torrent_self]
      exact decide_eq_false active
    rw [List.countP_append, List.countP_singleton, last, roster.nghosts]
    refine List.countP_congr fun tp mem => ?_
    unfold Daemon.ghost
    rw [old tp ((roster.mem_mTorrents tp).mp mem)]
  · intro tp saved
    refine List.mem_append.mpr ?_
    by_cases first : d.mNtorrents = 0
    · rw [show (d.created t).mSavetp = _ from if_pos first] at saved
      exact .inr (List.mem_singleton.mpr (Option.some.inj saved).symm)
    · rw [show (d.created t).mSavetp = _ from if_neg first] at saved
      exact .inl (roster.savetp_mem tp saved)
  · intro none
    by_cases first : d.mNtorrents = 0
    · rw [show (d.created t).mSavetp = _ from if_pos first] at none
      cases none
    · rw [show (d.created t).mSavetp = _ from if_neg first] at none
      have empty := roster.savetp_none none
      rw [roster.ntorrents, empty] at first
      exact absurd rfl first
  · intro tp mem
    rcases List.mem_cons.mp mem with rfl | mem
    · rw [Daemon.created_torrent_self]
      exact right
    · rw [old tp mem]
      exact roster.right mem

theorem Links.created (links : Links p d) (lib : Library p d) (roster : Roster d)
    (entry : t.tl ∈ d.tls) (free : (d.tlib t.tl).tp = none) : Links p (d.created t) := by
  have fresh : ∀ tp ∈ d.tps, tp ≠ d.nextTp := fun tp mem => Nat.ne_of_lt (roster.tps_lt tp mem)
  have old : ∀ tp ∈ d.tps, (d.created t).torrent tp = d.torrent tp := fun tp mem =>
    Daemon.created_torrent_of_ne (fresh tp mem)
  have apart : ∀ tp ∈ d.tps, (d.torrent tp).tl ≠ t.tl := by
    intro tp mem here
    have points := links.tp_tl tp mem (here ▸ entry)
    rw [here] at points
    exact absurd (points.symm.trans free) (Option.some_ne_none tp)
  have points : ∀ tl ∈ d.tls, ∀ tp, ((d.created t).tlib tl).tp = some tp →
      tl = t.tl ∧ tp = d.nextTp ∨ tl ≠ t.tl ∧ (d.tlib tl).tp = some tp := by
    intro tl _ tp points
    by_cases here : tl = t.tl
    · rw [here, Daemon.created_tlib_self] at points
      exact .inl ⟨here, (Option.some.inj points).symm⟩
    · rw [Daemon.created_tlib_of_ne here] at points
      exact .inr ⟨here, points⟩
  constructor
  case tl_lt =>
    intro tp mem
    rcases List.mem_cons.mp mem with rfl | mem
    · rw [Daemon.created_torrent_self]
      exact lib.tls_lt t.tl entry
    · rw [old tp mem]
      exact links.tl_lt tp mem
  case tl_inj =>
    intro tp mem tp' mem' same
    rcases List.mem_cons.mp mem with rfl | mem <;> rcases List.mem_cons.mp mem' with rfl | mem'
    · rfl
    · rw [Daemon.created_torrent_self, old tp' mem'] at same
      exact absurd same.symm (apart tp' mem')
    · rw [Daemon.created_torrent_self, old tp mem] at same
      exact absurd same (apart tp mem)
    · rw [old tp mem, old tp' mem'] at same
      exact links.tl_inj tp mem tp' mem' same
  case tp_tl =>
    intro tp mem entry'
    rcases List.mem_cons.mp mem with rfl | mem
    · rw [Daemon.created_torrent_self, Daemon.created_tlib_self]
    · rw [old tp mem] at entry' ⊢
      rw [Daemon.created_tlib_of_ne (apart tp mem)]
      exact links.tp_tl tp mem entry'
  case tl_tp =>
    intro tl tlMem tp points'
    rcases points tl tlMem tp points' with ⟨rfl, rfl⟩ | ⟨_, was⟩
    · exact ⟨List.mem_cons_self, .inl (congrArg Torrent.tl Daemon.created_torrent_self)⟩
    · obtain ⟨mem, back⟩ := links.tl_tp tl tlMem tp was
      rw [old tp mem]
      exact ⟨List.mem_cons_of_mem _ mem, back⟩
  case tp_inj =>
    intro tl1 mem1 tl2 mem2 tp points1 points2
    rcases points tl1 mem1 tp points1 with ⟨here1, rfl⟩ | ⟨_, was1⟩ <;>
      rcases points tl2 mem2 _ points2 with ⟨here2, next⟩ | ⟨_, was2⟩
    · exact here1.trans here2.symm
    · exact absurd rfl (fresh _ (links.tl_tp tl2 mem2 _ was2).1)
    · exact absurd next (fresh tp (links.tl_tp tl1 mem1 tp was1).1)
    · exact links.tp_inj tl1 mem1 tl2 mem2 tp was1 was2
  case alive =>
    intro tp mem active
    rcases List.mem_cons.mp mem with rfl | mem
    · rw [Daemon.created_torrent_self]
      exact entry
    · rw [old tp mem] at active ⊢
      exact links.alive tp mem active

theorem Inv.created (inv : Inv p d) (entry : t.tl ∈ d.tls) (free : (d.tlib t.tl).tp = none)
    (active : t.state ≠ .ghost) (right : t.Right) : Inv p (d.created t) where
  library := inv.library.congr rfl rfl rfl rfl (Daemon.created_same (f := Tlib.num) rfl)
    (Daemon.created_same (f := Tlib.hash) rfl)
  roster := inv.roster.created active right
  links := inv.links.created inv.library inv.roster entry free
  dirs := inv.dirs.congr rfl (Daemon.created_same (f := Tlib.hash) rfl) fun _ tl =>
    and_congr_right fun (tlMem : tl ∈ d.tls) => not_congr <| by
      by_cases here : tl = t.tl
      · refine iff_of_false ?_ ?_
        · rintro ⟨tp, points, -, ghost⟩
          rw [here, Daemon.created_tlib_self] at points
          cases points
          rw [Daemon.created_torrent_self] at ghost
          exact active ghost
        · rintro ⟨tp, points, -⟩
          rw [here, free] at points
          cases points
      · refine Daemon.haunting_congr (congrArg Tlib.tp (Daemon.created_tlib_of_ne here))
          fun tp points => ?_
        have mem := (inv.links.tl_tp tl tlMem tp points).1
        rw [Daemon.created_torrent_of_ne (Nat.ne_of_lt (inv.roster.tps_lt tp mem))]

/-! ## An entry comes -/

/-- The state after `tlib_create`. -/
def Daemon.entered (d : Daemon) (hash : Hash) : Daemon :=
  { d with
    tlib := Function.update d.tlib d.nextTl ⟨d.mNextnum, hash, none, true⟩
    tls := d.nextTl :: d.tls
    numtbl := d.nextTl :: d.numtbl
    hashtbl := d.nextTl :: d.hashtbl
    mNextnum := (d.mNextnum + 1) % 2 ^ 32
    nextTl := d.nextTl + 1 }

theorem Daemon.entered_self : (d.entered hash).tlib d.nextTl = ⟨d.mNextnum, hash, none, true⟩ :=
  Function.update_self ..

theorem Library.entered_old (lib : Library p d) (mem : tl ∈ d.tls) :
    (d.entered hash).tlib tl = d.tlib tl :=
  Function.update_of_ne (Nat.ne_of_lt (lib.tls_lt tl mem)) ..

/-- A key that the new entry shares with none names one entry again. -/
theorem Library.entered_inj {α : Type} {f : Tlib → α} (lib : Library p d)
    (inj : ∀ tl ∈ d.tls, ∀ tl' ∈ d.tls, f (d.tlib tl) = f (d.tlib tl') → tl = tl')
    (fresh : ∀ tl ∈ d.tls, f (d.tlib tl) ≠ f ⟨d.mNextnum, hash, none, true⟩) :
    ∀ tl ∈ (d.entered hash).tls, ∀ tl' ∈ (d.entered hash).tls,
      f ((d.entered hash).tlib tl) = f ((d.entered hash).tlib tl') → tl = tl' := by
  intro tl mem tl' mem' same
  rcases List.mem_cons.mp mem with rfl | mem <;> rcases List.mem_cons.mp mem' with rfl | mem'
  · rfl
  · rw [Daemon.entered_self, lib.entered_old mem'] at same
    exact absurd same.symm (fresh tl' mem')
  · rw [Daemon.entered_self, lib.entered_old mem] at same
    exact absurd same (fresh tl mem)
  · rw [lib.entered_old mem, lib.entered_old mem'] at same
    exact inj tl mem tl' mem' same

theorem Library.entered (lib : Library p d) (fresh : ∀ tl ∈ d.tls, (d.tlib tl).hash ≠ hash)
    (num : p.numbered → ∀ tl ∈ d.tls, (d.tlib tl).num ≠ d.mNextnum) :
    Library p (d.entered hash) := by
  have new : d.nextTl ∉ d.tls := fun mem => Nat.lt_irrefl _ (lib.tls_lt d.nextTl mem)
  constructor
  case tls_lt =>
    intro tl mem
    rcases List.mem_cons.mp mem with rfl | mem
    · exact Nat.lt_succ_self _
    · exact Nat.lt_succ_of_lt (lib.tls_lt tl mem)
  case tls_nodup => exact List.nodup_cons.mpr ⟨new, lib.tls_nodup⟩
  case mem_hashtbl =>
    intro tl
    change tl ∈ d.nextTl :: d.hashtbl ↔ tl ∈ d.nextTl :: d.tls
    rw [List.mem_cons, List.mem_cons, lib.mem_hashtbl]
  case hashtbl_nodup =>
    exact List.nodup_cons.mpr ⟨mt (lib.mem_hashtbl d.nextTl).mp new, lib.hashtbl_nodup⟩
  case hash_inj => exact lib.entered_inj (f := Tlib.hash) lib.hash_inj fresh
  case mem_numtbl =>
    intro numbered tl
    change tl ∈ d.nextTl :: d.numtbl ↔ tl ∈ d.nextTl :: d.tls
    rw [List.mem_cons, List.mem_cons, lib.mem_numtbl numbered]
  case numtbl_nodup =>
    intro numbered
    exact List.nodup_cons.mpr ⟨mt (lib.mem_numtbl numbered d.nextTl).mp new,
      lib.numtbl_nodup numbered⟩
  case num_inj =>
    exact fun numbered => lib.entered_inj (f := Tlib.num) (lib.num_inj numbered) (num numbered)

/-- The state after `tlib_add`. -/
def Daemon.added (d : Daemon) (hash : Hash) : Daemon :=
  { d.entered hash with dirs := hash :: d.dirs }

theorem Inv.added (inv : Inv p d) (fresh : ∀ tl ∈ d.tls, (d.tlib tl).hash ≠ hash)
    (num : p.numbered → ∀ tl ∈ d.tls, (d.tlib tl).num ≠ d.mNextnum) (dir : hash ∉ d.dirs) :
    Inv p (d.added hash) := by
  have new : d.nextTl ∉ d.tls := fun mem => Nat.lt_irrefl _ (inv.library.tls_lt d.nextTl mem)
  have old : ∀ tl ∈ d.tls, (d.added hash).tlib tl = d.tlib tl := fun tl mem =>
    inv.library.entered_old mem
  have points : ∀ tl ∈ (d.added hash).tls, ∀ tp, ((d.added hash).tlib tl).tp = some tp →
      tl ∈ d.tls ∧ (d.tlib tl).tp = some tp := by
    intro tl mem tp points
    rcases List.mem_cons.mp mem with rfl | mem
    · exact absurd ((congrArg Tlib.tp Daemon.entered_self).symm.trans points)
        (Option.some_ne_none tp).symm
    · rw [old tl mem] at points
      exact ⟨mem, points⟩
  have housed : ∀ tl, (d.added hash).Housed tl ↔ tl = d.nextTl ∨ d.Housed tl := by
    intro tl
    constructor
    · rintro ⟨mem, quiet⟩
      rcases List.mem_cons.mp mem with here | mem
      · exact .inl here
      · refine .inr ⟨mem, fun haunts => quiet ?_⟩
        obtain ⟨tp, points, haunts⟩ := haunts
        exact ⟨tp, (congrArg Tlib.tp (old tl mem)).trans points, haunts⟩
    · rintro (rfl | ⟨mem, quiet⟩)
      · refine ⟨List.mem_cons_self, ?_⟩
        rintro ⟨tp, there, -⟩
        exact new (points _ List.mem_cons_self tp there).1
      · refine ⟨List.mem_cons_of_mem _ mem, ?_⟩
        rintro ⟨tp, there, haunts⟩
        exact quiet ⟨tp, (points tl (List.mem_cons_of_mem _ mem) tp there).2, haunts⟩
  constructor
  case library =>
    exact (inv.library.entered fresh num).congr rfl rfl rfl rfl (fun _ => rfl) fun _ => rfl
  case roster =>
    rcases inv.roster with ⟨h1, h2, h3, h4, h5, h6, h7, h8, h9, h10, h11⟩
    exact ⟨h1, h2, h3, h4, h5, h6, h7, h8, h9, h10, h11⟩
  case links =>
    have links := inv.links
    have unlinked : ∀ tp ∈ d.tps, (d.torrent tp).tl ≠ d.nextTl := fun tp mem =>
      Nat.ne_of_lt (links.tl_lt tp mem)
    constructor
    case tl_lt => exact fun tp mem => Nat.lt_succ_of_lt (links.tl_lt tp mem)
    case tl_inj => exact links.tl_inj
    case tp_tl =>
      intro tp mem entry
      rcases List.mem_cons.mp entry with here | entry
      · exact absurd here (unlinked tp mem)
      · exact (congrArg Tlib.tp (old _ entry)).trans (links.tp_tl tp mem entry)
    case tl_tp =>
      intro tl tlMem tp there
      obtain ⟨mem, back⟩ := links.tl_tp tl (points tl tlMem tp there).1 tp
        (points tl tlMem tp there).2
      refine ⟨mem, back.imp_right fun dangling => ⟨dangling.1, fun entry => ?_, dangling.2.2⟩⟩
      rcases List.mem_cons.mp entry with here | entry
      · exact unlinked tp mem here
      · exact dangling.2.1 entry
    case tp_inj =>
      intro tl1 mem1 tl2 mem2 tp there1 there2
      exact links.tp_inj tl1 (points tl1 mem1 tp there1).1 tl2 (points tl2 mem2 tp there2).1 tp
        (points tl1 mem1 tp there1).2 (points tl2 mem2 tp there2).2
    case alive => exact fun tp mem active => List.mem_cons_of_mem _ (links.alive tp mem active)
  case dirs =>
    refine .of_housed (List.nodup_cons.mpr ⟨dir, inv.dirs.nodup⟩) fun kept h => ?_
    change h ∈ hash :: d.dirs ↔ _
    rw [List.mem_cons, inv.dirs.mem_iff kept]
    simp only [housed, or_and_right, exists_or, exists_eq_left]
    refine or_congr ?_ (exists_congr fun tl => and_congr_right fun house => ?_)
    · rw [show (d.added hash).tlib d.nextTl = _ from Daemon.entered_self]
      exact eq_comm
    · rw [old tl house.1]

/-! ## An entry is replaced -/

/-- `tlib_readd` has let go of the haunting entry. -/
def Daemon.released (d : Daemon) (tl tp : Nat) : Daemon :=
  (d.changed tp { d.torrent tp with delete := false }).removed tl

/-- The torrent of a haunting entry has that entry or none. -/
theorem Inv.released_tl (inv : Inv p d) (mem : tl ∈ d.tls) (points : (d.tlib tl).tp = some tp) :
    (d.torrent tp).tl ∉ (d.released tl tp).tls := by
  intro entry
  have there := inv.library.tls_nodup.mem_erase_iff.mp entry
  rcases (inv.links.tl_tp tl mem tp points).2 with here | ⟨-, dangling, -⟩
  · exact there.1 here
  · exact dangling there.2

theorem Inv.released (inv : Inv p d) (unlinked : ¬p.linked) (mem : tl ∈ d.tls)
    (points : (d.tlib tl).tp = some tp) (deleted : (d.torrent tp).delete = true)
    (ghost : (d.torrent tp).state = .ghost) : Inv p (d.released tl tp) := by
  have tpMem := (inv.links.tl_tp tl mem tp points).1
  have right := inv.roster.right tpMem
  have library : Library p (d.changed tp { d.torrent tp with delete := false }) :=
    inv.library.congr rfl rfl rfl rfl (fun _ => rfl) fun _ => rfl
  have roster : Roster (d.changed tp { d.torrent tp with delete := false }) :=
    inv.roster.changed Iff.rfl
      ⟨right.quiet, right.running, fun delete => absurd delete Bool.false_ne_true⟩
  have links : Links p (d.changed tp { d.torrent tp with delete := false }) :=
    inv.links.changed rfl id
  constructor
  case library => exact library.removed mem
  case roster => exact roster.congr_tlib d.tlib _ _ _
  case links =>
    refine links.removed library fun tp' mem' active here => ?_
    have points' := links.tp_tl tp' mem' (links.alive tp' mem' active)
    rw [here] at points'
    obtain rfl : tp = tp' := Option.some.inj (points.symm.trans points')
    exact active.elim unlinked fun active =>
      active ((congrArg Torrent.state Daemon.changed_self).trans ghost)
  case dirs =>
    refine inv.dirs.congr rfl (fun _ => rfl) fun _ tl' => ?_
    by_cases here : tl' = tl
    · rw [here]
      refine iff_of_false (fun house => ?_) fun house => house.2 ⟨tp, points, deleted, ghost⟩
      exact absurd rfl (library.mem_removed.mp house.1).1
    · refine (and_congr_left' (library.mem_removed.trans (and_iff_right here))).trans ?_
      refine and_congr_right fun mem' => not_congr ?_
      refine Daemon.haunting_congr rfl fun tp' points' => ?_
      have other : tp' ≠ tp := by
        rintro rfl
        exact here (inv.links.tp_inj tl' mem' tl mem tp' points' points)
      rw [show (d.released tl tp).torrent tp' = d.torrent tp' from Daemon.changed_of_ne other]

/-- The new entry points to the torrent of the old one. -/
def Daemon.relinked (d : Daemon) (tl tp : Nat) : Daemon :=
  { d with tlib := Function.update d.tlib tl { d.tlib tl with tp := some tp } }

theorem Daemon.relinked_self :
    (d.relinked tl tp).tlib tl = { d.tlib tl with tp := some tp } := Function.update_self ..

theorem Daemon.relinked_of_ne {tl' : Nat} (other : tl' ≠ tl) :
    (d.relinked tl tp).tlib tl' = d.tlib tl' := Function.update_of_ne other ..

theorem Daemon.relinked_same {α : Type} {f : Tlib → α}
    (same : f { d.tlib tl with tp := some tp } = f (d.tlib tl)) (tl' : Nat) :
    f ((d.relinked tl tp).tlib tl') = f (d.tlib tl') := by
  by_cases here : tl' = tl
  · rw [here, relinked_self, same]
  · rw [relinked_of_ne here]

theorem Inv.relinked (inv : Inv p d) (unlinked : ¬p.linked) (mem : tp ∈ d.tps)
    (kept : (d.torrent tp).delete = false) (ghost : (d.torrent tp).state = .ghost)
    (entry : tl ∈ d.tls) (free : (d.tlib tl).tp = none) (dangling : (d.torrent tp).tl ∉ d.tls)
    (alone : ∀ tl ∈ d.tls, (d.tlib tl).tp ≠ some tp) : Inv p (d.relinked tl tp) := by
  have links := inv.links
  have points : ∀ tl', ∀ tp', ((d.relinked tl tp).tlib tl').tp = some tp' →
      tl' = tl ∧ tp' = tp ∨ tl' ≠ tl ∧ (d.tlib tl').tp = some tp' := by
    intro tl' tp' points
    by_cases here : tl' = tl
    · rw [here, Daemon.relinked_self] at points
      exact .inl ⟨here, (Option.some.inj points).symm⟩
    · rw [Daemon.relinked_of_ne here] at points
      exact .inr ⟨here, points⟩
  constructor
  case library =>
    exact inv.library.congr rfl rfl rfl rfl (Daemon.relinked_same (f := Tlib.num) rfl)
      (Daemon.relinked_same (f := Tlib.hash) rfl)
  case roster => exact inv.roster.congr_tlib _ d.tls d.numtbl d.hashtbl
  case links =>
    constructor
    case tl_lt => exact links.tl_lt
    case tl_inj => exact links.tl_inj
    case tp_tl =>
      intro tp' mem' entry'
      have was := links.tp_tl tp' mem' entry'
      have other : (d.torrent tp').tl ≠ tl := by
        rintro rfl
        exact absurd (was.symm.trans free) (Option.some_ne_none tp')
      exact (congrArg Tlib.tp (Daemon.relinked_of_ne other)).trans was
    case tl_tp =>
      intro tl' mem' tp' points'
      rcases points tl' tp' points' with ⟨rfl, rfl⟩ | ⟨-, was⟩
      · exact ⟨mem, .inr ⟨unlinked, dangling, ghost⟩⟩
      · exact links.tl_tp tl' mem' tp' was
    case tp_inj =>
      intro tl1 mem1 tl2 mem2 tp' points1 points2
      rcases points tl1 tp' points1 with ⟨rfl, rfl⟩ | ⟨-, was1⟩ <;>
        rcases points tl2 _ points2 with ⟨rfl, here⟩ | ⟨-, was2⟩
      · rfl
      · exact absurd was2 (alone tl2 mem2)
      · exact absurd (here ▸ was1) (alone tl1 mem1)
      · exact links.tp_inj tl1 mem1 tl2 mem2 tp' was1 was2
    case alive => exact links.alive
  case dirs =>
    refine inv.dirs.congr rfl (Daemon.relinked_same (f := Tlib.hash) rfl) fun _ tl' => ?_
    refine and_congr_right fun mem' => not_congr ?_
    by_cases here : tl' = tl
    · rw [here]
      refine iff_of_false ?_ ?_
      · rintro ⟨tp', points', deleted, -⟩
        rcases points tl tp' points' with ⟨-, rfl⟩ | ⟨other, -⟩
        · exact absurd (kept.symm.trans deleted) Bool.false_ne_true
        · exact other rfl
      · rintro ⟨tp', points', -⟩
        exact absurd (points'.symm.trans free) (Option.some_ne_none tp')
    · exact Daemon.haunting_congr (congrArg Tlib.tp (Daemon.relinked_of_ne here)) fun _ _ => Iff.rfl

end Btpd.Torrents
