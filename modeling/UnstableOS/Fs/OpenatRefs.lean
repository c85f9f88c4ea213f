import UnstableOS.Fs.PathWalk

/-! What `__openat_inode` takes and does not give back.
The walk over a path is described once more, without references and buffers, to say which paths
come to a symbolic link and which end at a file that cannot be written.
-/

namespace UnstableOS.Fs.Openat

open Kernel Lib Ledger Pi Int Option

variable {v : Vfs} {p : Process} {root : Inode} {follow : Follow} {flags : Flags} {mode : UInt32}
  {needDir last : Bool} {name : Path} {names rest : List Path} {fuel sb sb' : ℕ} {c : Cursor}
  {prev prev' new : Inode} {l l' : Refs} {looked : Looked} {t : Turn}

-- Where a walk gets to

/-- An inode that was found: on which superblock the walk stands, and whether it was the last
name.
-/
structure Spot where
  sb : ℕ
  new : Inode
  last : Bool

/-- Where the walk goes on after a lookup, if it follows no symbolic link. -/
inductive Onward (v : Vfs) (root : Inode) : Looked → ℕ → Inode → Prop where
  | clamp {sb : ℕ} : Onward v root (.atRoot sb) sb root
  | pass {sb sb' : ℕ} {prev new next : Inode} (noLink : v.type new ≠ .lnk)
      (passes : Passes v sb new sb' next)
    : Onward v root (.found sb prev new) sb' next

/-- (Reaches v root flags names sb prev spot) holds when the walk over the names finds the inode
of the spot and followed no symbolic link before.
-/
inductive Reaches (v : Vfs) (root : Inode) (flags : Flags)
    : List Path → ℕ → Inode → Spot → Prop where
  | now {name : Path} {rest : List Path} {sb sb' : ℕ} {prev prev' new : Inode}
      (here : Looks v root flags rest.isEmpty name sb prev (.found sb' prev' new))
    : Reaches v root flags (name :: rest) sb prev ⟨sb', new, rest.isEmpty⟩
  | later {name : Path} {rest : List Path} {sb sb' : ℕ} {prev next : Inode} {looked : Looked}
      {spot : Spot} (here : Looks v root flags rest.isEmpty name sb prev looked)
      (onward : Onward v root looked sb' next) (there : Reaches v root flags rest sb' next spot)
    : Reaches v root flags (name :: rest) sb prev spot

/-- The last name must not exist, and does. -/
def MustNotExist (flags : Flags) (last : Bool) : Prop :=
  last = true ∧ flags.creat = true ∧ (flags.excl = true ∨ flags.directory = true)

/-- The inode is a symbolic link that is followed. -/
structure TakesBuffer (v : Vfs) (flags : Flags) (spot : Spot) : Prop where
  link : v.type spot.new = .lnk
  mayExist : ¬ MustNotExist flags spot.last
  followed : ¬ (spot.last = true ∧ (flags.nofollow = true ∨ flags.symlinkNofollow = true))
  permitted : v.permits spot.new { exec := true } = true
  readable : v.hasPread spot.sb = true
  short : v.size spot.new < symlinkMax
  memory : v.linkMemory = true

/-- The inode is a regular file to be written, on a filesystem that does not allow it. -/
structure EndsReadOnly (v : Vfs) (flags : Flags) (needDir : Bool) (spot : Spot) : Prop where
  last : spot.last = true
  mayExist : ¬ MustNotExist flags spot.last
  file : v.type spot.new = .reg
  noDir : needDir = false
  readOnly : v.readOnly spot.sb = true ∨ v.hasPwrite spot.sb = false
  writes : flags.wronly = true

/-- The walk comes to an inode at which something is not given back. -/
def Leaks (v : Vfs) (root : Inode) (flags : Flags) (needDir : Bool) (names : List Path) (sb : ℕ)
    (prev : Inode) : Prop :=
  ∃ spot, Reaches v root flags names sb prev spot
    ∧ (TakesBuffer v flags spot ∨ EndsReadOnly v flags needDir spot)

-- Buffers are only taken

/-- Following a link gives no buffer back that it did not take. -/
def Follow.Mono (follow : Follow) : Prop :=
  ∀ {base target flags l r l'}, follow base target flags l = some (r, l') → l.buffers ≤ l'.buffers

theorem lookupAgain_buffers
    (done : lookupAgain v root flags last name fuel sb prev l = some (looked, l'))
    : l'.buffers = l.buffers := by
  rw [(lookupAgain_looks done).2]

variable {r : Except Errno Inode} {buffer preincremented trusted : Bool} {start : Inode}
    {text : Path} {base : Base} {path : PathArg} {l₁ : Refs}

theorem create_buffers (done : create v flags mode last name sb prev l = (r, l'))
    : l'.buffers = l.buffers := by
  have out : (create v flags mode last name sb prev l).2 = l' := by rw [done]
  rw [← out]
  unfold create
  split_ifs <;> (try split) <;> rfl

theorem finishLast_buffers (v : Vfs) (flags : Flags) (new : Inode) (l : Refs)
    : (finishLast v flags new l).2.buffers = l.buffers := by
  unfold finishLast
  split_ifs <;> (try split) <;> rfl

theorem settle_buffers (done : settle v flags needDir last c new l = (t, l'))
    : l'.buffers = l.buffers := by
  have out : (settle v flags needDir last c new l).2 = l' := by rw [done]
  rw [← out]
  unfold settle
  dsimp only
  repeat' split
  all_goals first | rfl | exact finishLast_buffers v flags _ _

section
variable (mono : follow.Mono)
include mono

theorem followLink_mono (done : followLink v follow flags last c new l = some (r, buffer, l'))
    : l.buffers ≤ l'.buffers := by
  have taken : l.buffers ≤ (if c.buffer then l else l.alloc).buffers := by
    split
    · exact Int.le_refl _
    · exact le_add_one (Int.le_refl _)
  unfold followLink at done
  iterate 3
    split at done
    · cases done
      exact Int.le_refl _
  dsimp only at done
  split at done
  · cases done
    exact taken
  split at done <;> cases done
  all_goals
    rename_i result
    have grown := mono result
    exact Int.le_trans taken grown

/-- A symbolic link that is followed costs a buffer. -/
theorem followLink_grows
    (noBuffer : c.buffer = false) (takes : TakesBuffer v flags ⟨c.sb, new, last⟩)
    (done : followLink v follow flags last c new l = some (r, buffer, l'))
    : l.buffers < l'.buffers := by
  unfold followLink at done
  have small : ¬ (v.hasPread c.sb = false ∨ v.size new ≥ symlinkMax) := by
    simpa [takes.readable] using takes.short
  rw [if_neg (by simp [takes.permitted]), if_neg small, if_neg (by simp [takes.memory])] at done
  simp only [noBuffer, Bool.false_eq_true, if_false] at done
  split at done
  · cases done
    exact Int.lt_succ l.buffers
  split at done <;> cases done
  all_goals
    rename_i result
    exact Int.lt_of_lt_of_le (Int.lt_succ l.buffers) (mono result)

theorem turn_mono (done : turn v root follow flags mode needDir fuel last name c l = some (t, l'))
    : l.buffers ≤ l'.buffers := by
  unfold turn at done
  split at done
  · cases done
  case h_2 result | h_3 result =>
    cases done
    exact Int.le_of_eq (lookupAgain_buffers result).symm
  next result =>
    rw [← lookupAgain_buffers result]
    split at done <;> cases done
    all_goals
      rename_i creation
      exact Int.le_of_eq (create_buffers creation).symm
  next result =>
    rw [← lookupAgain_buffers result]
    unfold turnFound at done
    split_ifs at done
    iterate 2
      · cases done
        exact Int.le_refl _
    · split at done
      · cases done
      next linked =>
        cases done
        exact followLink_mono mono linked
      next linked =>
        rw [settle_buffers (some.inj done)]
        exact followLink_mono mono linked
    · exact Int.le_of_eq (settle_buffers (some.inj done)).symm

/-- Witness: induction on the names. -/
theorem walk_mono (done : walk v root follow flags mode needDir fuel names c l = some (r, l'))
    : l.buffers ≤ l'.buffers := by
  induction names generalizing c l with
  | nil => cases done
  | cons name rest ih =>
    rw [walk] at done
    split at done
    · cases done
    case h_2 result | h_3 result =>
      cases done
      exact turn_mono mono result
    next result => exact Int.le_trans (turn_mono mono result) (ih done)

end

theorem enter_buffers {base} (done : enter v base preincremented l = some (c, l'))
    : l'.buffers = l.buffers := by
  unfold enter at done
  repeat' split at done
  all_goals cases done
  all_goals rfl

theorem opened_buffers (root start : Inode) (preincremented : Bool) (text : Path) (l : Refs)
    : (opened root start preincremented text l).buffers = l.buffers := by
  unfold opened
  split <;> rfl

theorem openText_mono (mono : follow.Mono)
    (done : openText v root follow flags mode fuel start preincremented text l = some (r, l'))
    : l.free.buffers ≤ l'.buffers := by
  have same := opened_buffers root start preincremented text l
  obtain ⟨-, -, rfl⟩ | ⟨c, l₁, l₂, r', walked, -, rfl⟩ := openText_cases done
  · exact Int.sub_le_sub_right (Int.le_of_eq same.symm) 1
  · have grown := walk_mono mono walked.walked
    rw [enter_buffers walked.entered, same] at grown
    exact Int.sub_le_sub_right grown 1

/-- A call gives back no buffer that it did not take.
Witness: induction on the symbolic links that may still be followed.
-/
theorem openatInode_mono {depth}
    (done : openatInode v p fuel depth base path flags mode trusted l = some (r, l'))
    : l.buffers ≤ l'.buffers := by
  induction depth generalizing base path flags mode trusted l r l' with
  | zero =>
    cases done
    exact Int.le_refl _
  | succ depth ih =>
    obtain ⟨-, rfl, -⟩ | ⟨root, text, -, walked⟩ := openatInode_cases done
    · exact Int.le_refl _
    · have grown := openText_mono (fun followed => ih followed) walked
      rw [free_alloc] at grown
      split at grown <;> exact grown

-- The references of one turn

/-- The references a turn leaves in place of that to the directory. -/
def Turn.held : Turn → Inode → ℤ
  | .fail _ => 0
  | .done new => Pi.single new 1
  | .next c => Pi.single c.prev 1

theorem create_refs (done : create v flags mode last name sb prev l = (r, l'))
    : l' = { l with refs := l.refs - single prev 1 + resultRefs r } := by
  unfold create at done
  repeat' split at done
  all_goals
    cases done
    simp only [take, drop, resultRefs, mk.injEq, and_true]
    abel

attribute [local simp] drop Turn.held

theorem finishLast_refs (done : finishLast v flags new l = (t, l'))
    : l' = { l with refs := l.refs - single new 1 + t.held } ∧ ∀ c, t ≠ .next c := by
  unfold finishLast at done
  repeat' split at done
  all_goals
    cases done
    exact ⟨by simp, nofun⟩

/-- The end of a turn closes the directory and goes on from what was found. -/
structure Settled (v : Vfs) (last : Bool) (c : Cursor) (new : Inode) (l : Refs) (t : Turn)
    (l' : Refs) : Prop where
  refs : l' = { l with refs := l.refs - Pi.single c.prev 1 - Pi.single new 1 + t.held }
  next : ∀ c', t = .next c' ↔ last = false ∧ c'.buffer = c.buffer ∧ Passes v c.sb new c'.sb c'.prev

theorem Settled.onward {next} (more : last = false) (passes : Passes v c.sb new sb' next)
    (refs : l' = { l with refs := l.refs - single c.prev 1 - single new 1 + single next 1 })
    : Settled v last c new l (.next ⟨sb', next, c.buffer⟩) l' := by
  refine ⟨refs, fun c' => ⟨?_, ?_⟩⟩
  · rintro ⟨⟩
    exact ⟨more, rfl, passes⟩
  · rintro ⟨-, sameBuffer, passes'⟩
    obtain ⟨sameSb, sameNext⟩ := passes.unique passes'
    rw [sameSb, sameNext, ← sameBuffer]

theorem Settled.stop
    (refs : l' = { l with refs := l.refs - single c.prev 1 - single new 1 + t.held })
    (stops : ∀ c', t ≠ .next c') (dead : last = false → ∀ sb' next, ¬ Passes v c.sb new sb' next)
    : Settled v last c new l t l' :=
  ⟨refs, fun c' => ⟨fun isNext => absurd isNext (stops c'),
    fun ⟨more, _, passes⟩ => absurd passes (dead more _ _)⟩⟩

theorem settle_settled (mayExist : ¬ MustNotExist flags last)
    (writable : ¬ EndsReadOnly v flags needDir ⟨c.sb, new, last⟩)
    (done : settle v flags needDir last c new l = (t, l'))
    : Settled v last c new l t l' := by
  have fails {errno : Errno} (left : (Turn.fail errno, (l.drop c.prev).drop new) = (t, l'))
      (dead : last = false → ∀ sb' next, ¬ Passes v c.sb new sb' next)
      : Settled v last c new l t l' := by
    cases left
    exact Settled.stop (by simp) nofun dead
  unfold settle at done
  dsimp only at done
  split at done
  next noDir => exact fails done (fun more => absurd noDir.1 (by simp [more]))
  next dirOk =>
  split at done
  next ends =>
    refine absurd ⟨ends.1, mayExist, ends.2.1, ?_, ends.2.2.1, ends.2.2.2⟩ writable
    refine eq_false_of_ne_true fun needed => dirOk ⟨ends.1, needed, ?_⟩
    rw [ends.2.1]
    exact nofun
  next =>
  split at done
  next mounted =>
    split at done
    next unable =>
      refine fails done (fun _ sb' next passes => ?_)
      cases passes with
      | stay plain => simp [plain] at mounted
      | cross _ able _ => simp [able] at unable
    next able =>
    split at done
    case h_1 answer | h_2 answer =>
      refine fails done (fun _ sb' next passes => ?_)
      cases passes with
      | stay plain => simp [plain] at mounted
      | cross _ _ answer' => cases answer.symm.trans answer'
    next top answer =>
      split at done
      next isLast =>
        obtain ⟨refs, stops⟩ := finishLast_refs done
        refine Settled.stop ?_ stops (fun more => absurd isLast (by simp [more]))
        rw [refs]
        simp [take]
      next more =>
        cases done
        refine Settled.onward (eq_false_of_ne_true more)
          (.cross mounted.1 (eq_true_of_ne_false able) answer) ?_
        simp [take]
  next unmounted =>
    split at done
    next isLast =>
      obtain ⟨refs, stops⟩ := finishLast_refs done
      refine Settled.stop ?_ stops (fun more => absurd isLast (by simp [more]))
      rw [refs]
      simp
    next more =>
      cases done
      have plain : v.isMountpoint new = false := by
        refine eq_false_of_ne_true fun mounted => unmounted ⟨mounted, ?_⟩
        exact fun isLast => more isLast.1
      refine Settled.onward (eq_false_of_ne_true more) (.stay plain) ?_
      simp

theorem settle_readOnly (ends : EndsReadOnly v flags needDir ⟨c.sb, new, last⟩)
    : settle v flags needDir last c new l = (.fail .erofs, l.drop c.prev) := by
  unfold settle
  have needed : ¬ (last = true ∧ needDir = true ∧ v.type new ≠ .dir) := by
    simp [ends.noDir]
  rw [if_neg needed, if_pos ⟨ends.last, ends.file, ends.readOnly, ends.writes⟩]

/-- What one turn does about a lookup at which nothing is lost. -/
structure Kept (v : Vfs) (root : Inode) (flags : Flags) (needDir last : Bool) (c : Cursor)
    (looked : Looked) (l : Refs) (t : Turn) (l' : Refs) : Prop where
  harmless : ∀ sb prev new, looked = .found sb prev new →
    ¬ TakesBuffer v flags ⟨sb, new, last⟩ ∧ ¬ EndsReadOnly v flags needDir ⟨sb, new, last⟩
  refs : l' = { l with refs := l.refs - Pi.single c.prev 1 + t.held }
  next : ∀ c', t = .next c' ↔ last = false ∧ c'.buffer = false ∧ Onward v root looked c'.sb c'.prev

/-- What one turn does about a lookup at which something is lost. -/
inductive Lost (v : Vfs) (flags : Flags) (needDir last : Bool) (c : Cursor)
    : Looked → Refs → Turn → Refs → Prop where
  | buffer {sb : ℕ} {prev new : Inode} {l l' : Refs} {t : Turn}
      (takes : TakesBuffer v flags ⟨sb, new, last⟩) (grows : l.buffers < l'.buffers)
    : Lost v flags needDir last c (.found sb prev new) l t l'
  | reference {sb : ℕ} {prev new : Inode} {l : Refs}
      (ends : EndsReadOnly v flags needDir ⟨sb, new, last⟩)
    : Lost v flags needDir last c (.found sb prev new) l (.fail .erofs)
        { l with refs := l.refs - Pi.single c.prev 1 + Pi.single new 1 }

theorem followLink_refuses (noBuffer : c.buffer = false)
    (link : v.type new = .lnk) (mayExist : ¬ MustNotExist flags last)
    (followed : ¬ (last = true ∧ (flags.nofollow = true ∨ flags.symlinkNofollow = true)))
    (refused : ¬ TakesBuffer v flags ⟨c.sb, new, last⟩)
    (done : followLink v follow flags last c new l = some (r, buffer, l'))
    : (∃ errno, r = .error errno) ∧ l' = (l.drop c.prev).drop new := by
  unfold followLink at done
  split_ifs at done with permitted readable memory
  iterate 3
    · cases done
      exact ⟨⟨_, rfl⟩, rfl⟩
  all_goals
    rw [not_or, Nat.not_le] at readable
    refine absurd ⟨link, mayExist, followed, eq_true_of_ne_false permitted,
      eq_true_of_ne_false readable.1, readable.2, ?_⟩ refused
    exact eq_true_of_ne_false fun none => memory ⟨noBuffer, none⟩

/-- The part of a turn behind a lookup that found an inode. -/
theorem found_kept_or_lost (mono : follow.Mono) (noBuffer : c.buffer = false) (refs : l₁ = { l with
      refs := l.refs - single c.prev 1 + (single prev 1 + single new 1) })
    (done : turnFound v follow flags needDir last { c with sb := sb, prev := prev } new l₁
      = some (t, l'))
    : Kept v root flags needDir last c (.found sb prev new) l t l'
      ∨ Lost v flags needDir last c (.found sb prev new) l t l' := by
  have both : (l₁.drop prev).drop new = { l with refs := l.refs - single c.prev 1 + 0 } := by
    rw [refs]
    simp [sub_sub]
  have stops {t : Turn} (stop : ∀ c', t ≠ .next c')
      (dead : last = true ∨ v.type new = .lnk) (c' : Cursor)
      : t = .next c' ↔ last = false ∧ c'.buffer = false
        ∧ Onward v root (.found sb prev new) c'.sb c'.prev := by
    refine ⟨fun isNext => absurd isNext (stop c'), ?_⟩
    rintro ⟨more, -, ⟨⟩ | ⟨noLink, -⟩⟩
    obtain isLast | link := dead
    · simp [more] at isLast
    · exact absurd link noLink
  have fails {errno} (noTake : ¬ TakesBuffer v flags ⟨sb, new, last⟩)
      (noEnd : ¬ EndsReadOnly v flags needDir ⟨sb, new, last⟩)
      (dead : last = true ∨ v.type new = .lnk)
      : Kept v root flags needDir last c (.found sb prev new) l (.fail errno)
          ((l₁.drop prev).drop new) := by
    refine ⟨?_, both, stops nofun dead⟩
    rintro _ _ _ ⟨⟩
    exact ⟨noTake, noEnd⟩
  unfold turnFound at done
  split at done
  next exists' =>
    cases done
    exact .inl (fails (fun takes => takes.mayExist exists') (fun ends => ends.mayExist exists')
      (.inl exists'.1))
  next mayExist =>
  split at done
  next refused =>
    obtain ⟨isLast, link, nofollow⟩ := refused
    cases done
    exact .inl (fails (fun takes => takes.followed ⟨isLast, .inl nofollow⟩)
      (fun ends => nomatch link.symm.trans ends.file) (.inl isLast))
  next allowed =>
    split at done
    next linked =>
      obtain ⟨followed, link⟩ := linked
      have followed : ¬ (last = true ∧ (flags.nofollow = true ∨ flags.symlinkNofollow = true)) := by
        rintro ⟨isLast, nofollow | symlinkNofollow⟩
        · exact allowed ⟨isLast, link, nofollow⟩
        · exact followed ⟨isLast, symlinkNofollow⟩
      have same : l₁.buffers = l.buffers := by rw [refs]
      have noBuffer : ({ c with sb := sb, prev := prev } : Cursor).buffer = false := noBuffer
      by_cases takes : TakesBuffer v flags ⟨sb, new, last⟩
      · refine .inr (.buffer takes (same ▸ ?_))
        split at done
        · cases done
        next result =>
          cases done
          exact followLink_grows mono noBuffer takes result
        next result =>
          rw [settle_buffers (some.inj done)]
          exact followLink_grows mono noBuffer takes result
      · have refuses {buffer} {r : Except Errno Inode} {k} :=
          @followLink_refuses v follow flags last _ new l₁ k r buffer noBuffer link mayExist
            followed takes
        split at done
        · cases done
        next result =>
          cases done
          obtain ⟨-, rfl⟩ := refuses result
          exact .inl (fails takes (fun ends => nomatch link.symm.trans ends.file) (.inr link))
        next result =>
          obtain ⟨⟨_, ⟨⟩⟩, -⟩ := refuses result
    next plain =>
      have noTake : ¬ TakesBuffer v flags ⟨sb, new, last⟩ := by
        intro takes
        refine plain ⟨fun isLast => takes.followed ⟨isLast.1, .inr isLast.2⟩, takes.link⟩
      by_cases ends : EndsReadOnly v flags needDir ⟨sb, new, last⟩
      · rw [settle_readOnly ends] at done
        cases done
        refine .inr ?_
        have left : l₁.drop prev = { l with refs := l.refs - single c.prev 1 + single new 1 } := by
          rw [refs]
          simp only [drop, mk.injEq, and_true]
          abel
        rw [left]
        exact .reference ends
      · have settled := settle_settled mayExist ends (some.inj done)
        refine .inl ⟨?_, ?_, fun c' => ?_⟩
        · rintro _ _ _ ⟨⟩
          exact ⟨noTake, ends⟩
        · rw [settled.refs, refs]
          simp [sub_sub]
        · rw [settled.next c']
          constructor
          · rintro ⟨more, sameBuffer, passes⟩
            refine ⟨more, sameBuffer.trans noBuffer, .pass (fun link => plain ⟨?_, link⟩) passes⟩
            exact fun isLast => by simp [more] at isLast
          · rintro ⟨more, free, ⟨⟩ | ⟨-, passes⟩⟩
            exact ⟨more, free.trans noBuffer.symm, passes⟩

theorem turn_kept_or_lost (mono : follow.Mono) (noBuffer : c.buffer = false)
    (done : turn v root follow flags mode needDir fuel last name c l = some (t, l'))
    : ∃ looked, Looks v root flags last name c.sb c.prev looked
        ∧ (Kept v root flags needDir last c looked l t l'
          ∨ Lost v flags needDir last c looked l t l') := by
  unfold turn at done
  split at done
  · cases done
  next errno l₁ result =>
    cases done
    obtain ⟨looks, refs⟩ := lookupAgain_looks result
    refine ⟨_, looks, .inl ⟨by simp, refs, fun c' => ⟨by simp, ?_⟩⟩⟩
    rintro ⟨-, -, ⟨⟩⟩
  next sb l₁ result =>
    cases done
    obtain ⟨looks, refs⟩ := lookupAgain_looks result
    refine ⟨_, looks, .inl ⟨by simp, ?_, fun c' => ?_⟩⟩
    · rw [refs]
      cases last <;> rfl
    · cases last with
      | true => simp
      | false =>
        constructor
        · rintro ⟨⟩
          exact ⟨rfl, noBuffer, .clamp⟩
        · rintro ⟨-, free, onward⟩
          obtain ⟨sb', prev', buffer'⟩ := c'
          cases onward
          simp [← noBuffer] at free
          simp [free]
  next sb prev l₁ result =>
    obtain ⟨looks, refs⟩ := lookupAgain_looks result
    have stops {t : Turn} (stop : ∀ c', t ≠ .next c') (c' : Cursor)
        : t = .next c' ↔ last = false ∧ c'.buffer = false
          ∧ Onward v root (.missing sb prev) c'.sb c'.prev := by
      refine ⟨fun isNext => absurd isNext (stop c'), ?_⟩
      rintro ⟨-, -, ⟨⟩⟩
    split at done <;> cases done
    all_goals
      rename_i creation
      refine ⟨_, looks, .inl ⟨by simp, ?_, stops (by simp)⟩⟩
      rw [create_refs creation, refs]
      simp [Looked.held, resultRefs]
  next sb prev new l₁ result =>
    obtain ⟨looks, refs⟩ := lookupAgain_looks result
    exact ⟨_, looks, found_kept_or_lost mono noBuffer refs done⟩

-- The references of a call

/-- What a walk does if it loses nothing, and if it does. -/
inductive Outcome (v : Vfs) (root : Inode) (flags : Flags) (needDir : Bool) (names : List Path)
    (sb : ℕ) (prev : Inode) (l : Refs) : Except Errno Inode → Refs → Prop where
  | kept {r : Except Errno Inode} (harmless : ¬ Leaks v root flags needDir names sb prev)
    : Outcome v root flags needDir names sb prev l r
        { l with refs := l.refs - Pi.single prev 1 + resultRefs r }
  | buffer {r : Except Errno Inode} {l' : Refs} (leaks : Leaks v root flags needDir names sb prev)
      (grows : l.buffers < l'.buffers)
    : Outcome v root flags needDir names sb prev l r l'
  | reference {new : Inode} (leaks : Leaks v root flags needDir names sb prev)
    : Outcome v root flags needDir names sb prev l (.error .erofs)
        { l with refs := l.refs - Pi.single prev 1 + Pi.single new 1 }

section
variable (here : Looks v root flags rest.isEmpty name sb prev looked)
include here

theorem Leaks.later
    (onward : Onward v root looked sb' prev') (leaks : Leaks v root flags needDir rest sb' prev')
    : Leaks v root flags needDir (name :: rest) sb prev := by
  obtain ⟨spot, reaches, lost⟩ := leaks
  exact ⟨spot, .later here onward reaches, lost⟩

/-- Nothing is lost if nothing is lost at the first name, nor behind it. -/
theorem not_leaks_cons (harmless : ∀ sb prev new, looked = .found sb prev new →
      ¬ TakesBuffer v flags ⟨sb, new, rest.isEmpty⟩
        ∧ ¬ EndsReadOnly v flags needDir ⟨sb, new, rest.isEmpty⟩)
    (behind : ∀ sb' next, rest.isEmpty = false → Onward v root looked sb' next →
      ¬ Leaks v root flags needDir rest sb' next)
    : ¬ Leaks v root flags needDir (name :: rest) sb prev := by
  rintro ⟨spot, reaches, lost⟩
  cases reaches with
  | now here' =>
    obtain ⟨noTake, noEnd⟩ := harmless _ _ _ (here.unique here')
    exact lost.elim noTake noEnd
  | later here' onward there =>
    cases here.unique here'
    refine behind _ _ ?_ onward ⟨spot, there, lost⟩
    cases there <;> rfl

end

/-- Witness: induction on the names. -/
theorem walk_outcome (mono : follow.Mono) (noBuffer : c.buffer = false)
    (done : walk v root follow flags mode needDir fuel names c l = some (r, l'))
    : Outcome v root flags needDir names c.sb c.prev l r l' := by
  induction names generalizing c l with
  | nil => cases done
  | cons name rest ih =>
    rw [walk] at done
    cases result : turn v root follow flags mode needDir fuel rest.isEmpty name c l with
    | none =>
      rw [result] at done
      cases done
    | some turned =>
      obtain ⟨t, l₁⟩ := turned
      obtain ⟨looked, here, kept | lost⟩ := turn_kept_or_lost mono noBuffer result
      · rw [result] at done
        have ends {r : Except Errno Inode} (stops : ∀ c', t ≠ .next c')
            (same : t.held = resultRefs r)
            : Outcome v root flags needDir (name :: rest) c.sb c.prev l r l₁ := by
          rw [kept.refs, same]
          refine .kept (not_leaks_cons here kept.harmless fun sb' next more onward => ?_)
          exact absurd ((kept.next ⟨sb', next, false⟩).2 ⟨more, rfl, onward⟩) (stops _)
        cases t with
        | fail errno | done new =>
          cases done
          exact ends nofun rfl
        | next c' =>
          obtain ⟨more, free, onward⟩ := (kept.next c').1 rfl
          have total (x : Inode → ℤ) : ({ l₁ with refs := l₁.refs - single c'.prev 1 + x } : Refs)
              = { l with refs := l.refs - single c.prev 1 + x } := by
            rw [kept.refs]
            simp
          cases ih free done with
          | kept harmless =>
            rw [total]
            refine .kept (not_leaks_cons here kept.harmless fun sb' next _ onward' => ?_)
            cases (kept.next ⟨sb', next, false⟩).2 ⟨more, rfl, onward'⟩
            exact harmless
          | buffer leaks grows =>
            rw [kept.refs] at grows
            exact .buffer (leaks.later here onward) grows
          | reference leaks =>
            rw [total]
            exact .reference (leaks.later here onward)
      · have grown (more : l.buffers < l₁.buffers) : l.buffers < l'.buffers := by
          rw [result] at done
          cases t with
          | fail errno | done new =>
            cases done
            exact more
          | next c' => exact Int.lt_of_lt_of_le more (walk_mono mono done)
        cases lost with
        | buffer takes grows => exact .buffer ⟨_, .now here, .inl takes⟩ (grown grows)
        | reference endsHere =>
          rw [result] at done
          cases done
          exact .reference ⟨_, .now here, .inr endsHere⟩

/-- The call finds its base closed; it counts its own references to the root and to the base. -/
def Raced (v : Vfs) (root start : Inode) (preincremented : Bool) (text : Path) : Prop :=
  (v.instances (baseOf root start text) : ℤ) + (if baseOf root start text = root then 1 else 0)
      + (if preincremented && !isAbsolute text then 1 else 0)
    ≤ if v.isMountpoint (baseOf root start text) then 1 else 0

/-- What a call from `AT_FDCWD` has taken when it looks at the path. -/
def beginning (start : Inode) (preincremented : Bool) : Refs :=
  (if preincremented then Ledger.zero.take start else Ledger.zero).alloc

theorem opened_refs (root start : Inode) (preincremented : Bool) (text : Path)
    : (opened root start preincremented text (beginning start preincremented)).refs
        = baseRefs (baseOf root start text) (preincremented && !isAbsolute text)
          + single root 1 := by
  cases absolute : isAbsolute text <;> cases preincremented <;>
    simp [opened, beginning, baseRefs, baseOf, absolute, zero, take, alloc, lock]

theorem racedWithClose_iff (v : Vfs) (root start : Inode) (preincremented : Bool) (text : Path)
    : RacedWithClose v (baseOf root start text)
        (opened root start preincremented text (beginning start preincremented))
        ↔ Raced v root start preincremented text := by
  unfold RacedWithClose Raced
  rw [opened_refs]
  have atBase : (baseRefs (baseOf root start text) (preincremented && !isAbsolute text)
        + single root 1 : Inode → ℤ) (baseOf root start text)
      = (if baseOf root start text = root then 1 else 0)
        + (if preincremented && !isAbsolute text then 1 else 0) := by
    rw [Pi.add_apply, single_apply, baseRefs_self, add_comm]
  rw [atBase, add_assoc]

/-- The result and the ledger agree: an error leaves nothing behind, an inode one reference. -/
def Balanced (r : Except Errno Inode) (l : Refs) : Prop :=
  l = ⟨resultRefs r, 0, 0⟩

/-- The calls that lose something: those that find `AT_FDCWD` closed, and those whose walk
comes to a symbolic link that is followed or ends at a regular file to be written on a
filesystem that is mounted read-only or cannot write.
-/
inductive Lossy (v : Vfs) (p : Process) (base : Base) (path : PathArg) (flags : Flags)
    (trusted : Bool) : Prop where
  | raced {root : Inode} {text : Path} (begins : Begins v p base path trusted root text)
      (cwd : base = .cwd) (relative : isAbsolute (cleanupPath text) = false)
      (raced : Raced v root (base.start p) true (cleanupPath text))
  | walk {root prev : Inode} {text : Path} {sb : ℕ}
      (begins : Begins v p base path trusted root text)
      (still : ¬ Raced v root (base.start p) (decide (base = .cwd)) (cleanupPath text))
      (enters : Enters v (baseOf root (base.start p) (cleanupPath text)) sb prev)
      (leaks : Leaks v root flags.mask (needsDir (cleanupPath text))
        (pathNames (cleanupPath text)) sb prev)

theorem Begins.unique {root root' text'} (first : Begins v p base path trusted root text)
    (second : Begins v p base path trusted root' text')
    : root = root' ∧ text = text' :=
  ⟨some.inj (first.hasRoot.symm.trans second.hasRoot),
    some.inj (first.copied.symm.trans second.copied)⟩

theorem balanced_closed (r : Except Errno Inode) (extra : Inode → ℤ)
    (refs : l₁.refs = single root 1 + extra) (buffers : l₁.buffers = 1)
    (readers : l₁.readers = 1)
    : Balanced r (closed root l₁) ↔ extra = resultRefs r := by
  simp [Balanced, closed, unlock, free, refs, buffers, readers]

theorem opened_readers (root start : Inode) (preincremented : Bool) (text : Path)
    : (opened root start preincremented text (beginning start preincremented)).readers = 1 := by
  unfold opened beginning
  split <;> split <;> rfl

theorem opened_buffers_one (root start : Inode) (preincremented : Bool) (text : Path)
    : (opened root start preincremented text (beginning start preincremented)).buffers = 1 := by
  rw [opened_buffers]
  unfold beginning
  split <;> rfl

/-- The part of a call behind the checks of its arguments. -/
theorem openText_balanced_iff (mono : follow.Mono)
    (done : openText v root follow flags mode fuel start preincremented text
      (beginning start preincremented) = some (r, l))
    : Balanced r l
      ↔ (Raced v root start preincremented text → preincremented = true → isAbsolute text = true)
        ∧ (¬ Raced v root start preincremented text → ∀ sb prev,
          Enters v (baseOf root start text) sb prev →
            ¬ Leaks v root flags (needsDir text) (pathNames text) sb prev) := by
  have refs := opened_refs root start preincremented text
  have buffers := opened_buffers_one root start preincremented text
  have readers := opened_readers root start preincremented text
  obtain ⟨raced, rfl, rfl⟩ | ⟨c, l₁, l₂, r', walked, same, rfl⟩ := openText_cases done
  · rw [add_comm] at refs
    rw [racedWithClose_iff] at raced
    rw [balanced_closed _ _ refs buffers readers, resultRefs, baseRefs_eq_zero]
    constructor
    · intro kept
      refine ⟨fun _ isCwd => ?_, fun still => absurd raced still⟩
      simpa [isCwd] using kept
    · rintro ⟨absolute, -⟩
      cases preincremented with
      | true => simp [absolute raced rfl]
      | false => rfl
  · have still := walked.still
    rw [racedWithClose_iff] at still
    obtain ⟨enters, free, entered⟩ := enter_enters walked.entered
    rw [refs] at entered
    have settles {r} {refs : Inode → ℤ} (extra) (total : refs = single root 1 + extra)
        : Balanced r (closed root { l₁ with refs }) ↔ extra = resultRefs r := by
      refine balanced_closed r extra total ?_ ?_ <;> rw [entered]
      exacts [buffers, readers]
    cases walk_outcome mono free walked.walked with
    | kept harmless =>
      refine iff_of_true ?_ ⟨fun raced => absurd raced still, fun _ sb prev enters' => ?_⟩
      · refine (settles _ ?_).2 rfl
        rw [entered]
        dsimp only
        abel
      · obtain ⟨rfl, rfl⟩ := enters.unique enters'
        exact harmless
    | buffer leaks grows =>
      refine iff_of_false (fun balanced => ?_) fun right => right.2 still _ _ enters leaks
      have none : l₂.buffers - 1 = 0 := congrArg Ledger.buffers balanced
      rw [entered] at grows
      dsimp only at grows
      omega
    | @reference new leaks =>
      refine iff_of_false (fun balanced => ?_) fun right => right.2 still _ _ enters leaks
      obtain rfl | ⟨⟨_, ⟨⟩⟩, -⟩ := same
      refine one_ne_zero (single_eq_zero_iff.1 ((settles (single new 1) ?_).1 balanced))
      rw [entered]
      dsimp only [resultRefs]
      abel

/-- A call gives back what it took, but for the inode it opened, exactly if it is not one of the
lossy ones.
-/
theorem balanced_iff {base : Base} {path : PathArg} {trusted : Bool} {r : Except Errno Inode}
    (done : openatInode v p fuel symloopMax base path flags mode trusted zero = some (r, l))
    : Balanced r l ↔ ¬ Lossy v p base path flags trusted := by
  obtain ⟨⟨errno, rfl⟩, rfl, never⟩ | ⟨root, text, begins, opens⟩ := openatInode_cases done
  · refine iff_of_true rfl ?_
    rintro (⟨begins, -, -, -⟩ | ⟨begins, -, -, -⟩)
    · exact never _ _ begins
    · exact never _ _ begins
  have start : (if base = .cwd then zero.take (base.start p) else zero).alloc
      = beginning (base.start p) (decide (base = .cwd)) := by
    simp [beginning]
  rw [start] at opens
  rw [openText_balanced_iff (fun followed => openatInode_mono followed) opens]
  constructor
  · rintro ⟨whenRaced, whenStill⟩ lossy
    cases lossy with
    | raced begins' cwd relative raced =>
      obtain ⟨rfl, rfl⟩ := begins.unique begins'
      have absolute := whenRaced (by simpa [cwd] using raced) (by simp [cwd])
      simp [relative] at absolute
    | walk begins' still enters leaks =>
      obtain ⟨rfl, rfl⟩ := begins.unique begins'
      exact whenStill still _ _ enters leaks
  · intro kept
    refine ⟨fun raced cwd => ?_, fun still sb prev enters leaks => ?_⟩
    · by_contra relative
      have cwd := of_decide_eq_true cwd
      refine kept (.raced begins cwd (eq_false_of_ne_true relative) ?_)
      simpa [cwd] using raced
    · exact kept (.walk begins still enters leaks)

/-- A filesystem whose root holds a file `a` and a symbolic link `l` to it. -/
def linkedFile (readOnly : Bool) : Vfs where
  rootSuperblock := 0
  mountpoint _ := ⟨0, 2⟩
  readOnly _ := readOnly
  hasLookup _ := true
  hasCreat _ := true
  hasMkdir _ := true
  hasPread _ := true
  hasPwrite _ := true
  hasTrunc _ := true
  type i := if i.id = 2 then .dir else if i.id = 4 then .lnk else .reg
  size _ := 1
  instances i := if i.id = 2 then 2 else 0
  isMountpoint i := decide (i = ⟨0, 2⟩)
  nextSuperblock _ := 0
  permits _ _ := true
  lookup _ _ name _ :=
    if name = [97] then .found (some ⟨0, 3⟩)
    else if name = [108] then .found (some ⟨0, 4⟩)
    else .error .enoent
  lookupRoot _ := .ok (some ⟨0, 2⟩)
  creat _ _ _ := .error .enospc
  mkdir _ _ _ := .error .enospc
  pread _ := .ok [97]
  trunc _ := none
  linkMemory := true
  dupMemory := true
  strayLength := 0

/-- The process at the root of that filesystem. -/
def atTop : Process := ⟨some ⟨0, 2⟩, ⟨0, 2⟩, 0⟩

/-- Opening `a` loses nothing. -/
theorem balanced_plain_file
    : ∃ l, openatInode (linkedFile false) atTop 1 symloopMax .cwd (.text [97]) { rdonly := true } 0
        false zero = some (.ok ⟨0, 3⟩, l)
      ∧ Balanced (.ok ⟨0, 3⟩) l
      ∧ ¬ Lossy (linkedFile false) atTop .cwd (.text [97]) { rdonly := true } false := by
  obtain ⟨l, run, balanced⟩ : ∃ l, openatInode (linkedFile false) atTop 1 symloopMax .cwd
      (.text [97]) { rdonly := true } 0 false zero = some (.ok ⟨0, 3⟩, l)
      ∧ Balanced (.ok ⟨0, 3⟩) l := by
    refine ⟨closed ⟨0, 2⟩ ((((beginning ⟨0, 2⟩ true).lock.take ⟨0, 2⟩).take ⟨0, 3⟩).drop ⟨0, 2⟩),
      rfl, ?_⟩
    simp [Balanced, closed, beginning, zero, take, alloc, free, lock, unlock]
    abel
  exact ⟨l, run, balanced, (balanced_iff run).1 balanced⟩

/-- Following `l` keeps a buffer, and a file that cannot be written stays open. -/
theorem link_and_read_only_lose
    : (∃ l, openatInode (linkedFile false) atTop 1 symloopMax .cwd (.text [108]) { rdonly := true }
          0 false zero = some (.ok ⟨0, 3⟩, l)
        ∧ l.buffers = 1 ∧ ¬ Balanced (.ok ⟨0, 3⟩) l)
      ∧ ∃ l, openatInode (linkedFile true) atTop 1 symloopMax .cwd (.text [97]) { wronly := true }
          0 false zero = some (.error .erofs, l)
        ∧ l.refs ⟨0, 3⟩ = 1 ∧ ¬ Balanced (.error .erofs) l := by
  refine ⟨⟨_, rfl, rfl, fun balanced => ?_⟩, ⟨_, rfl, rfl, fun balanced => ?_⟩⟩
  · cases congrArg buffers balanced
  · cases congrFun (congrArg refs balanced) ⟨0, 3⟩

end UnstableOS.Fs.Openat
