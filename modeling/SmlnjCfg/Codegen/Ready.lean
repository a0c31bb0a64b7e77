import SmlnjCfg.Codegen.Grow

/-!
# `SmlnjCfg.Codegen.Ready`: blocks that are still to come

From any point on, code goes to the current block and to blocks that nothing
was added to yet. So a block is finished when code generation leaves it, and
the edges into a phi node are those that were there when their blocks ended.

* `Ready`: the blocks still to come are unused. Every call keeps it.
* `Emits.grows`: the blocks that code is added to.
* `Visits.grows`: what is added between a visit and the end of the run.
-/

set_option autoImplicit false

namespace SmlnjCfg.Codegen

open Cfg Gen

/-- A block that has no code, and no edge from it to a phi node. It may have phi nodes of its own,
which are made when the fragments are initialized. -/
structure Unused (c : Context) (b : BBId) : Prop where
  insts : ∀ p ∈ c.body.insts, p.1 ≠ b
  incoming : ∀ p ∈ c.body.incoming, p.2.2 ≠ b

/-- The blocks that code generation starts for `code`: those of the arms below it, or of the
fragments from number `i` on, and blocks that are not made yet. The current block is not one of
them. -/
def Code.ahead : Code → Context → BBId → Prop
  | .stm frag _ path, c, b =>
      (∃ q, q ≠ [] ∧ b = .stm frag (q ++ path)) ∨ ∃ m, c.nextBB ≤ m ∧ b = .new m
  | .arms frag _ _ path i, c, b =>
      (∃ q j, i ≤ j ∧ b = .stm frag (q ++ j :: path)) ∨ ∃ m, c.nextBB ≤ m ∧ b = .new m
  | .frags _ i, c, b => (∃ j p, i ≤ j ∧ b = .stm j p) ∨ ∃ m, c.nextBB ≤ m ∧ b = .new m

/-- The block that code generation goes on with for `code`. Arms and fragments start their own. -/
def Code.cur : Code → Context → Option BBId
  | .stm .., c => some c.curBB
  | _, _ => none

/-- The blocks that code is added to for `code`: the current one and those ahead. -/
def Code.region (code : Code) (c : Context) (b : BBId) : Prop :=
  code.cur c = some b ∨ code.ahead c b

/-! ### Where code goes -/

/-- The insertion point, variables and registers are no code. -/
theorem Grows.of_eq {R : BBId → Prop} {c c' : Context} (vMap : LVar → Option Val) (bb : BBId)
    (rs : CMRegState) (h : c' = { c with vMap := vMap, curBB := bb, regState := rs }) :
    Grows R c c' := by
  subst h
  exact ⟨rfl, rfl, rfl, rfl, rfl, Nat.le_refl _, Nat.le_refl _, ⟨[], by simp⟩, ⟨[], by simp⟩,
    ⟨[], by simp⟩, fun b hb => ⟨hb, rfl⟩, fun b hb => .inl hb⟩

/-- Starting an arm adds no code. -/
theorem grows_armStart {R : BBId → Prop} (frag : Nat) (saved : CMRegState) (path : List Nat)
    (i : Nat) (c : Context) : Grows R c (armStart frag saved path i c) :=
  .of_eq c.vMap _ _ rfl

/-- Neither does going to the block of a fragment. -/
theorem grows_atFrag {R : BBId → Prop} (c : Context) (b : BBId) : Grows R c (c.atFrag b) :=
  .of_eq _ _ c.regState rfl

/-- The blocks for what follows a head are among those for the statement. The current block may be
a new one by then, and a new one is ahead of the statement. -/
theorem Advances.region_le {frag : Nat} {s k : Stm .cpp} {path : List Nat} {c c₁ : Context}
    (h : Advances c c₁) {b : BBId} (hb : (Code.stm frag k path).region c₁ b) :
    (Code.stm frag s path).region c b := by
  have hle := h.grows.nextBB_le
  rcases hb with hb | ⟨q, hq, rfl⟩ | ⟨m, hm, rfl⟩
  · obtain rfl : c₁.curBB = b := Option.some.inj hb
    rcases h.curBB with hcur | ⟨m, hm, hcur⟩
    · exact .inl (congrArg some hcur.symm)
    · exact .inr (.inr ⟨m, hm, hcur⟩)
  · exact .inr (.inl ⟨q, hq, rfl⟩)
  · exact .inr (.inr ⟨m, by omega, rfl⟩)

/-- Code goes to the blocks for it, by induction on what is generated. In each case the blocks of
the parts are among those of the whole: an arm has a longer path, and a later fragment a greater
number. -/
theorem Emits.grows {code : Code} {c c' : Context} (h : Emits code c c') :
    (∀ b, code.cur c = some b → Old c b) → Grows (code.region c) c c' := by
  induction h with
  | @stop frag s path c c' hk h =>
      intro hold
      have hadv := Stm.head_advances h (hold _ rfl)
      refine hadv.grows.mono fun b hb => ?_
      rcases hb with rfl | hb
      · exact .inl rfl
      · exact .inr (.inr hb)
  -- The head, and then the statement that follows in the same path.
  | @next frag s k path c c₁ c' hk h hnext ih =>
      intro hold
      have hadv := Stm.head_advances h (hold _ rfl)
      have hg := ih (by rintro b ⟨⟩; exact hadv.old)
      refine Grows.trans (hadv.grows.mono fun b hb => ?_) (hg.mono fun b hb => ?_)
      · rcases hb with rfl | hb
        · exact .inl rfl
        · exact .inr (.inr hb)
      · exact hadv.region_le hb
  -- The head, and then the arms, each of which has a block with a longer path.
  | @arms frag s ks path c c₁ c' hk h harms ih =>
      intro hold
      have hadv := Stm.head_advances h (hold _ rfl)
      have hle := hadv.grows.nextBB_le
      refine Grows.trans (hadv.grows.mono fun b hb => ?_) ((ih nofun).mono fun b hb => ?_)
      · rcases hb with rfl | hb
        · exact .inl rfl
        · exact .inr (.inr hb)
      · rcases hb with hb | ⟨q, j, -, rfl⟩ | ⟨m, hm, rfl⟩
        · cases hb
        · exact .inr (.inl ⟨q ++ [j], by simp, by simp⟩)
        · exact .inr (.inr ⟨m, by omega, rfl⟩)
  | noArm => exact fun _ => .refl _
  -- One arm, whose blocks end in its number, and then the arms with greater numbers.
  | @arm frag saved k ks path i c c₁ c' harm hrest iharm ihrest =>
      intro _
      have hg := iharm (by rintro b ⟨⟩; exact nofun)
      have hle : c.nextBB ≤ c₁.nextBB := hg.nextBB_le
      refine (grows_armStart frag saved path i c).trans
        (Grows.trans (hg.mono fun b hb => ?_) ((ihrest nofun).mono fun b hb => ?_))
      · rcases hb with hb | ⟨q, -, rfl⟩ | ⟨m, hm, rfl⟩
        · obtain rfl : BBId.stm frag (i :: path) = b := Option.some.inj hb
          exact .inr (.inl ⟨[], i, Nat.le_refl _, rfl⟩)
        · exact .inr (.inl ⟨q, i, Nat.le_refl _, rfl⟩)
        · exact .inr (.inr ⟨m, hm, rfl⟩)
      · rcases hb with hb | ⟨q, j, hj, rfl⟩ | ⟨m, hm, rfl⟩
        · cases hb
        · exact .inr (.inl ⟨q, j, by omega, rfl⟩)
        · exact .inr (.inr ⟨m, by omega, rfl⟩)
  | noFrag => exact fun _ => .refl _
  -- The start of a fragment, its body, and the fragments that come later.
  | @frag f fs i c c₁ c₂ c' hbb hstart hbody hrest ihbody ihrest =>
      intro _
      obtain ⟨hadv, -⟩ := fragStart_ok hbb hstart
      have hg := ihbody (by rintro b ⟨⟩; exact hadv.old)
      have hle : c.nextBB ≤ c₁.nextBB := hadv.grows.nextBB_le
      have hle' := hg.nextBB_le
      refine (grows_atFrag c _).trans (Grows.trans (hadv.grows.mono fun b hb => ?_)
        (Grows.trans (hg.mono fun b hb => ?_) ((ihrest nofun).mono fun b hb => ?_)))
      · rcases hb with rfl | hb
        · exact .inr (.inl ⟨i, [], Nat.le_refl _, rfl⟩)
        · exact .inr (.inr hb)
      · rcases hadv.region_le (s := f.frag.body) hb with hb | ⟨q, -, rfl⟩ | hb
        · obtain rfl : BBId.stm i [] = b := Option.some.inj hb
          exact .inr (.inl ⟨i, [], Nat.le_refl _, rfl⟩)
        · exact .inr (.inl ⟨i, _, Nat.le_refl _, rfl⟩)
        · exact .inr (.inr hb)
      · rcases hb with hb | ⟨j, p, hj, rfl⟩ | ⟨m, hm, rfl⟩
        · cases hb
        · exact .inr (.inl ⟨j, p, by omega, rfl⟩)
        · exact .inr (.inr ⟨m, by omega, rfl⟩)

/-! ### Blocks to come -/

namespace Unused

variable {R : BBId → Prop} {c c' : Context} {b : BBId}

/-- A block stays unused if no code is added to it. A block that is not made yet may be in the
set, since no code can have gone to it. -/
theorem of_grows (h : Unused c b) (hg : Grows R c c') (hb : ¬ (R b ∧ Old c' b)) : Unused c' b where
  insts p hp := by
    obtain ⟨is, heq, his⟩ := hg.insts
    rw [heq] at hp
    rcases List.mem_append.mp hp with hp | hp
    · exact h.insts p hp
    · rintro rfl
      exact hb (his p hp)
  incoming p hp := by
    obtain ⟨ics, heq, hics⟩ := hg.incoming
    rw [heq] at hp
    rcases List.mem_append.mp hp with hp | hp
    · exact h.incoming p hp
    · rintro rfl
      exact hb (hics p hp)

/-- A block that is unused was so before: nothing is ever removed. -/
theorem before (h : Unused c' b) (hg : Grows R c c') : Unused c b where
  insts p hp := by
    obtain ⟨is, heq, -⟩ := hg.insts
    exact h.insts p (heq ▸ List.mem_append_left _ hp)
  incoming p hp := by
    obtain ⟨ics, heq, -⟩ := hg.incoming
    exact h.incoming p (heq ▸ List.mem_append_left _ hp)

/-- Only the code counts. -/
theorem of_body (h : Unused c b) (hbody : c'.body = c.body) : Unused c' b :=
  ⟨hbody ▸ h.insts, hbody ▸ h.incoming⟩

end Unused

/-- Nothing was added yet to the blocks that are still to come. Besides, all phi nodes have been
made with numbers that exist, the current block has been made, and no edge leaves it so far. -/
structure Ready (code : Code) (c : Context) : Prop where
  ahead : ∀ b, code.ahead c b → Unused c b
  phis : ∀ p ∈ c.body.phis, Old c p.1 ∧ p.2.1 < c.nextId
  old : ∀ b, code.cur c = some b → Old c b
  cur : ∀ b, code.cur c = some b → ¬ code.ahead c b ∧ ∀ p ∈ c.body.incoming, p.2.2 ≠ b

/-- New phi nodes are in blocks and have numbers that exist, as the old ones do. -/
theorem Grows.phis_old {R : BBId → Prop} {c c' : Context} (hg : Grows R c c')
    (h : ∀ p ∈ c.body.phis, Old c p.1 ∧ p.2.1 < c.nextId) :
    ∀ p ∈ c'.body.phis, Old c' p.1 ∧ p.2.1 < c'.nextId := by
  intro p hp
  obtain ⟨ps, heq, hps⟩ := hg.phis
  rw [heq] at hp
  rcases List.mem_append.mp hp with hp | hp
  · exact ⟨(h p hp).1.mono hg, Nat.lt_of_lt_of_le (h p hp).2 hg.nextId_le⟩
  · obtain ⟨⟨m, -, hlt, hm⟩, -, hid⟩ := hps p hp
    refine ⟨fun m' hm' => ?_, hid⟩
    rw [hm] at hm'
    cases hm'
    exact hlt

/-- A block that is ahead of what follows a head is ahead of the statement, and
still unused. -/
theorem Ready.unused_of_head {frag : Nat} {s : Stm .cpp} {path : List Nat} {c c₁ : Context}
    (hr : Ready (.stm frag s path) c) (hadv : Advances c c₁) {b : BBId}
    (hb : (∃ q, q ≠ [] ∧ b = .stm frag (q ++ path)) ∨ ∃ m, c₁.nextBB ≤ m ∧ b = .new m) :
    Unused c₁ b := by
  have hle := hadv.grows.nextBB_le
  have hahead : (Code.stm frag s path).ahead c b := by
    rcases hb with hb | ⟨m, hm, hb⟩
    · exact .inl hb
    · exact .inr ⟨m, by omega, hb⟩
  refine (hr.ahead b hahead).of_grows hadv.grows ?_
  rintro ⟨rfl | ⟨m, hm, rfl⟩, hold⟩
  · exact (hr.cur _ rfl).1 hahead
  · rcases hb with ⟨q, -, hb⟩ | ⟨m', hm', hb⟩
    · cases hb
    · cases hb
      exact absurd (hold m rfl) (by omega)

/-- No edge to a phi node leaves the current block when a head has been generated that something
follows. A head that traps has such edges, but it goes on in another block. -/
theorem Ready.incoming_of_head {frag : Nat} {s : Stm .cpp} {path : List Nat} {c c₁ : Context}
    (hr : Ready (.stm frag s path) c) (hk : s.kids ≠ .stop)
    (h : s.head frag path c = .ok ((), c₁)) : ∀ p ∈ c₁.body.incoming, p.2.2 ≠ c₁.curBB := by
  rcases Stm.head_cases (hr.old _ rfl) h with ⟨-, hstay⟩ | ⟨c₂, c₃, obit, res, hstay, hadv, hbr, lv, hbind⟩
  · have hs := hstay hk
    rw [hs.incoming, hs.curBB]
    exact (hr.cur _ rfl).2
  · obtain ⟨-, bb, c₄, ics, hovflw, hc₃, hics⟩ := overflowBranch_ok hbr
    obtain ⟨-, -, -, -, -, hinc⟩ := theOverflowBB_grows hovflw
    have hle := hadv.grows.nextBB_le
    cases hbind
    subst hc₃
    intro p hp
    show p.2.2 ≠ .new c₂.nextBB
    rcases List.mem_append.mp hp with hp | hp
    · rw [hinc] at hp
      refine (hr.ahead _ (.inr ⟨c₂.nextBB, hle, rfl⟩)).incoming p ?_
      rw [← hstay.incoming]
      exact hp
    · obtain ⟨q, v, -, -, rfl⟩ := exists_left_of_mem hics hp
      intro hnew
      rw [hstay.curBB] at hnew
      exact absurd (hr.old _ rfl _ hnew) (by omega)

/-- The statement that follows a head finds its blocks unused. -/
theorem Ready.next {frag : Nat} {s k : Stm .cpp} {path : List Nat} {c c₁ : Context}
    (hr : Ready (.stm frag s path) c) (hk : s.kids = .next k)
    (h : s.head frag path c = .ok ((), c₁)) : Ready (.stm frag k path) c₁ := by
  have hadv := Stm.head_advances h (hr.old _ rfl)
  have hle := hadv.grows.nextBB_le
  refine ⟨fun b hb => hr.unused_of_head hadv hb, hadv.grows.phis_old hr.phis,
    by rintro b ⟨⟩; exact hadv.old, ?_⟩
  rintro b ⟨⟩
  refine ⟨fun hahead => ?_, hr.incoming_of_head (by rw [hk]; exact nofun) h⟩
  rcases hahead with ⟨q, hq, hb⟩ | ⟨m, hm, hb⟩
  · rcases hadv.curBB with hcur | ⟨m, -, hcur⟩
    · exact (hr.cur _ rfl).1 (.inl ⟨q, hq, hcur ▸ hb⟩)
    · rw [hcur] at hb
      cases hb
  · exact absurd (hadv.old m hb) (by omega)

/-- So do the arms after a head. -/
theorem Ready.arms {frag : Nat} {s : Stm .cpp} {ks : List (Stm .cpp)} {path : List Nat}
    {c c₁ : Context} (hr : Ready (.stm frag s path) c)
    (h : s.head frag path c = .ok ((), c₁)) :
    Ready (.arms frag c₁.regState ks path 0) c₁ := by
  have hadv := Stm.head_advances h (hr.old _ rfl)
  refine ⟨fun b hb => hr.unused_of_head hadv ?_, hadv.grows.phis_old hr.phis, nofun, nofun⟩
  rcases hb with ⟨q, j, -, rfl⟩ | hb
  · exact .inl ⟨q ++ [j], by simp, by simp⟩
  · exact .inr hb

/-- The first of the arms that are left starts in its own block, which is one of those ahead. -/
theorem Ready.arm {frag : Nat} {saved : CMRegState} {k : Stm .cpp} {ks : List (Stm .cpp)}
    {path : List Nat} {i : Nat} {c : Context} (hr : Ready (.arms frag saved (k :: ks) path i) c) :
    Ready (.stm frag k (i :: path)) (armStart frag saved path i c) := by
  refine ⟨fun b hb => ?_, hr.phis, by rintro b ⟨⟩; exact nofun, ?_⟩
  · refine (hr.ahead b ?_).of_body rfl
    rcases hb with ⟨q, -, rfl⟩ | hb
    · exact .inl ⟨q, i, Nat.le_refl _, rfl⟩
    · exact .inr hb
  · rintro b ⟨⟩
    refine ⟨?_, (hr.ahead _ (.inl ⟨[], i, Nat.le_refl _, rfl⟩)).incoming⟩
    rintro (⟨q, hq, hb⟩ | ⟨m, -, hb⟩)
    · injection hb with _ hb
      exact hq (by simpa using hb)
    · cases hb

/-- The code of an arm goes to blocks with its number or to new ones, so the later arms find
theirs unused still. -/
theorem Ready.laterArm {frag : Nat} {saved : CMRegState} {k : Stm .cpp} {ks : List (Stm .cpp)}
    {path : List Nat} {i : Nat} {c c₁ : Context}
    (hr : Ready (.arms frag saved (k :: ks) path i) c)
    (harm : Emits (.stm frag k (i :: path)) (armStart frag saved path i c) c₁) :
    Ready (.arms frag saved ks path (i + 1)) c₁ := by
  have hg := harm.grows (by rintro b ⟨⟩; exact nofun)
  have hle : c.nextBB ≤ c₁.nextBB := hg.nextBB_le
  refine ⟨fun b hb => ?_, hg.phis_old hr.phis, nofun, nofun⟩
  have hahead : (Code.arms frag saved (k :: ks) path i).ahead c b := by
    rcases hb with ⟨q, j, hj, rfl⟩ | ⟨m, hm, rfl⟩
    · exact .inl ⟨q, j, by omega, rfl⟩
    · exact .inr ⟨m, by omega, rfl⟩
  have hunused : Unused (armStart frag saved path i c) b := (hr.ahead b hahead).of_body rfl
  refine hunused.of_grows hg ?_
  rintro ⟨hreg, hold'⟩
  rcases hb with ⟨q, j, hj, rfl⟩ | ⟨m, hm, rfl⟩
  · -- the arm with number `j` is not the one with number `i`
    have hne : ∀ q', q' ++ i :: path ≠ q ++ j :: path := by
      intro q' heq
      have htail := (List.append_inj' heq (by simp)).2
      injection htail with hij
      omega
    rcases hreg with hreg | ⟨q', -, hreg⟩ | ⟨m, -, hreg⟩
    · injection hreg with hreg
      injection hreg with _ hreg
      exact hne [] hreg
    · injection hreg with _ hreg
      exact hne q' hreg.symm
    · cases hreg
  · exact absurd (hold' m rfl) (by omega)

/-- The body of a fragment starts in the block of the fragment, where the code for its entry
is. -/
theorem Ready.frag {f : FragBB} {fs : List FragBB} {i : Nat} {c c₁ : Context}
    (hr : Ready (.frags (f :: fs) i) c) (hbb : f.bb = .stm i [])
    (hstart : fragStart i f c = .ok ((), c₁)) : Ready (.stm i f.frag.body []) c₁ := by
  obtain ⟨hadv, hstay⟩ := fragStart_ok hbb hstart
  have hle : c.nextBB ≤ c₁.nextBB := hadv.grows.nextBB_le
  have hcur : c₁.curBB = .stm i [] := hstay.curBB
  refine ⟨fun b hb => ?_, hadv.grows.phis_old hr.phis, by rintro b ⟨⟩; exact hadv.old, ?_⟩
  · have hahead : (Code.frags (f :: fs) i).ahead c b := by
      rcases hb with ⟨q, -, rfl⟩ | ⟨m, hm, rfl⟩
      · exact .inl ⟨i, _, Nat.le_refl _, rfl⟩
      · exact .inr ⟨m, by omega, rfl⟩
    have hunused : Unused (c.atFrag (.stm i [])) b := (hr.ahead b hahead).of_body rfl
    refine hunused.of_grows hadv.grows ?_
    rintro ⟨rfl | ⟨m, -, rfl⟩, hold⟩
    · rcases hb with ⟨q, hq, hb⟩ | ⟨m, -, hb⟩
      · injection hb with _ hb
        exact hq (List.append_eq_nil_iff.mp hb.symm).1
      · cases hb
    · rcases hb with ⟨q, -, hb⟩ | ⟨m', hm', hb⟩
      · cases hb
      · cases hb
        exact absurd (hold m rfl) (by omega)
  · rintro b hb
    obtain rfl : BBId.stm i [] = b := by rw [← hcur]; exact Option.some.inj hb
    refine ⟨?_, ?_⟩
    · rintro (⟨q, hq, hb⟩ | ⟨m, -, hb⟩)
      · injection hb with _ hb
        exact hq (List.append_eq_nil_iff.mp hb.symm).1
      · cases hb
    · rw [hstay.incoming]
      exact (hr.ahead _ (.inl ⟨i, [], Nat.le_refl _, rfl⟩)).incoming

/-- The code of a fragment goes to blocks with its number or to new ones, as that of an arm
does. -/
theorem Ready.laterFrag {f : FragBB} {fs : List FragBB} {i : Nat} {c c₁ c₂ : Context}
    (hr : Ready (.frags (f :: fs) i) c) (hbb : f.bb = .stm i [])
    (hstart : fragStart i f c = .ok ((), c₁)) (hbody : Emits (.stm i f.frag.body []) c₁ c₂) :
    Ready (.frags fs (i + 1)) c₂ := by
  obtain ⟨hadv, hstay⟩ := fragStart_ok hbb hstart
  have hg := hbody.grows (by rintro b ⟨⟩; exact hadv.old)
  have hle : c.nextBB ≤ c₁.nextBB := hadv.grows.nextBB_le
  have hle' := hg.nextBB_le
  refine ⟨fun b hb => ?_, hg.phis_old (hadv.grows.phis_old hr.phis), nofun, nofun⟩
  have hahead : (Code.frags (f :: fs) i).ahead c b := by
    rcases hb with ⟨j, p, hj, rfl⟩ | ⟨m, hm, rfl⟩
    · exact .inl ⟨j, p, by omega, rfl⟩
    · exact .inr ⟨m, by omega, rfl⟩
  have hunused₀ : Unused (c.atFrag (.stm i [])) b := (hr.ahead b hahead).of_body rfl
  have hunused : Unused c₁ b := by
    refine hunused₀.of_grows hadv.grows ?_
    rintro ⟨rfl | ⟨m, -, rfl⟩, hold₁⟩
    · rcases hb with ⟨j, p, hj, hb⟩ | ⟨m, -, hb⟩
      · injection hb with hij
        omega
      · cases hb
    · rcases hb with ⟨j, p, -, hb⟩ | ⟨m', hm', hb⟩
      · cases hb
      · cases hb
        exact absurd (hold₁ m rfl) (by omega)
  refine hunused.of_grows hg ?_
  rintro ⟨hreg, hold₂⟩
  rcases hb with ⟨j, p, hj, rfl⟩ | ⟨m, hm, rfl⟩
  · rcases hreg with hreg | ⟨q, -, hreg⟩ | ⟨m, -, hreg⟩
    · rw [Code.cur, hstay.curBB] at hreg
      injection hreg with hreg
      injection hreg with hij
      omega
    · injection hreg with hij
      omega
    · cases hreg
  · exact absurd (hold₂ m rfl) (by omega)

/-- Every call finds the blocks that are still to come unused. -/
theorem Calls.ready {code code' : Code} {c c' : Context} (h : Calls (code, c) (code', c'))
    (hr : Ready code c) : Ready code' c' := by
  cases h with
  | next hk h => exact hr.next hk h
  | arms hk h => exact hr.arms h
  | arm => exact hr.arm
  | laterArm harm => exact hr.laterArm harm
  | frag hbb hstart => exact hr.frag hbb hstart
  | laterFrag hbb hstart hbody => exact hr.laterFrag hbb hstart hbody

/-- And so does everything that code generation comes to, by any number of calls. -/
theorem Visits.ready {p q : Code × Context} (h : Visits p q) (hr : Ready p.1 p.2) :
    Ready q.1 q.2 := h.invariant (fun _ _ _ _ hcall hr => hcall.ready hr) hr

/-- What was called ends, and then code goes to unused blocks only. The run from `code` is
determined by its start, so the call is a part of the given run. -/
theorem Calls.split {code code' : Code} {c c' C : Context} (h : Calls (code, c) (code', c'))
    (hr : Ready code c) (he : Emits code c C) :
    ∃ C', Emits code' c' C' ∧ Grows (Unused C') C' C := by
  cases h with
  | next hk h =>
      cases he with
      | stop hk' _ => rw [hk] at hk'; cases hk'
      | next hk' h' hnext =>
          rw [hk] at hk'
          cases hk'
          rw [h] at h'
          cases h'
          exact ⟨C, hnext, .refl C⟩
      | arms hk' _ _ => rw [hk] at hk'; cases hk'
  | arms hk h =>
      cases he with
      | stop hk' _ => rw [hk] at hk'; cases hk'
      | next hk' _ _ => rw [hk] at hk'; cases hk'
      | arms hk' h' harms =>
          rw [hk] at hk'
          cases hk'
          rw [h] at h'
          cases h'
          exact ⟨C, harms, .refl C⟩
  -- The arm, and then the other arms, for which the blocks are still unused.
  | arm =>
      cases he with
      | arm harm hrest =>
          have hr' := hr.laterArm harm
          refine ⟨_, harm, (hrest.grows hr'.old).mono fun b hb => hr'.ahead b ?_⟩
          exact hb.resolve_left nofun
  -- The rest of the arms is the end of the run.
  | laterArm harm =>
      cases he with
      | arm harm' hrest =>
          obtain rfl := harm.unique harm'
          exact ⟨C, hrest, .refl C⟩
  | frag hbb hstart =>
      cases he with
      | frag hbb' hstart' hbody hrest =>
          rw [hstart] at hstart'
          cases hstart'
          have hr' := hr.laterFrag hbb hstart hbody
          refine ⟨_, hbody, (hrest.grows hr'.old).mono fun b hb => hr'.ahead b ?_⟩
          exact hb.resolve_left nofun
  | laterFrag hbb hstart hbody =>
      cases he with
      | frag hbb' hstart' hbody' hrest =>
          rw [hstart] at hstart'
          cases hstart'
          obtain rfl := hbody.unique hbody'
          exact ⟨C, hrest, .refl C⟩

/-- From a visit on, code goes to the current block and to unused blocks. So every other block is
finished, and the code of the visited statement is at the end of what its block has by then. -/
theorem Visits.grows {p q : Code × Context} (h : Visits p q) {C : Context} (hr : Ready p.1 p.2)
    (he : Emits p.1 p.2 C) : Grows (fun b => q.1.cur q.2 = some b ∨ Unused q.2 b) q.2 C := by
  induction h using Relation.ReflTransGen.head_induction_on generalizing C with
  | refl => exact (he.grows hr.old).mono fun b hb => hb.imp_right (hr.ahead b)
  | head hcall _ ih =>
      obtain ⟨C', he', hg⟩ := hcall.split hr he
      have hg' := ih (hcall.ready hr) he'
      exact hg'.trans (hg.mono fun b hb => .inr (hb.before hg'))

/-- What code generation comes to ends, if the run does. -/
theorem Visits.emits {p q : Code × Context} (h : Visits p q) {C : Context} (hr : Ready p.1 p.2)
    (he : Emits p.1 p.2 C) : ∃ C', Emits q.1 q.2 C' := by
  induction h using Relation.ReflTransGen.head_induction_on generalizing C with
  | refl => exact ⟨C, he⟩
  | head hcall _ ih =>
      obtain ⟨C', he', -⟩ := hcall.split hr he
      exact ih (hcall.ready hr) he'

/-! ### Invariants of contexts -/

/-- An invariant of the contexts that code generation comes to, for statements
that satisfy `P`: `I` is about a context, `S` about saved registers, and `F` about
the fragments that are left. -/
structure RunInv (P : Stm .cpp → Context → Prop) (I : Context → Prop)
    (S : CMRegState → Context → Prop) (F : List FragBB → Context → Prop) : Prop where
  head : ∀ {frag : Nat} {s : Stm .cpp} {path : List Nat} {c c' : Context},
    s.head frag path c = .ok ((), c') → P s c → I c → I c'
  saved : ∀ {c : Context}, I c → S c.regState c
  arm : ∀ {frag : Nat} {saved : CMRegState} {path : List Nat} {i : Nat} {c : Context},
    I c → S saved c → I (armStart frag saved path i c)
  later : ∀ {R : BBId → Prop} {saved : CMRegState} {c c' : Context}, Grows R c c' →
    S saved c → S saved c'
  frag : ∀ {f : FragBB} {fs : List FragBB} {i : Nat} {c c' : Context}, f.bb = .stm i [] →
    (0 < i → I c) → F (f :: fs) c → fragStart i f c = .ok ((), c') → I c'
  rest : ∀ {R : BBId → Prop} {f : FragBB} {fs : List FragBB} {c c' : Context}, Grows R c c' →
    F (f :: fs) c → F fs c'

/-- The invariant at `code`. Nothing is known before the first fragment. -/
def Code.Inv (I : Context → Prop) (S : CMRegState → Context → Prop)
    (F : List FragBB → Context → Prop) : Code → Context → Prop
  | .stm .., c => I c
  | .arms _ saved .., c => I c ∧ S saved c
  | .frags fs i, c => (0 < i → I c) ∧ F fs c

namespace RunInv

variable {P : Stm .cpp → Context → Prop} {I : Context → Prop} {S : CMRegState → Context → Prop}
  {F : List FragBB → Context → Prop}

/-- All statements that code generation comes to satisfy `P`. This is how a condition on the
program, or on the context at a statement, gets into an invariant. -/
def Allowed (P : Stm .cpp → Context → Prop) (code : Code) (c : Context) : Prop :=
  ∀ frag s path d, Visits (code, c) (.stm frag s path, d) → P s d

/-- What is called comes to fewer statements. -/
theorem Allowed.call {code code' : Code} {c c' : Context} (h : Allowed P code c)
    (hcall : Calls (code, c) (code', c')) : Allowed P code' c' :=
  fun frag s path d hv => h frag s path d (.head hcall hv)

/-- The code of a statement or of arms keeps the invariant, so it holds for the arm that comes
next. Fragments are left out, since the context before the first one is arbitrary. -/
theorem emits (inv : RunInv P I S F) {code : Code} {c c' : Context} (he : Emits code c c') :
    Allowed P code c → code.Inv I S F c → (∀ fs i, code ≠ .frags fs i) → I c' := by
  induction he with
  | stop hk h => exact fun hP hI _ => inv.head h (hP _ _ _ _ .refl) hI
  | next hk h _ ih =>
      exact fun hP hI _ => ih (hP.call (.next hk h)) (inv.head h (hP _ _ _ _ .refl) hI) nofun
  | arms hk h _ ih =>
      intro hP hI _
      have hI₁ := inv.head h (hP _ _ _ _ .refl) hI
      exact ih (hP.call (.arms hk h)) ⟨hI₁, inv.saved hI₁⟩ nofun
  | noArm => exact fun _ hI _ => hI.1
  | arm harm _ iharm ihrest =>
      intro hP hI _
      have hI₁ := iharm (hP.call .arm) (inv.arm hI.1 hI.2) nofun
      have hg := (grows_armStart _ _ _ _ _).trans (harm.grows (by rintro b ⟨⟩; exact nofun))
      exact ihrest (hP.call (.laterArm harm)) ⟨hI₁, inv.later hg hI.2⟩ nofun
  | noFrag => exact fun _ _ hne => absurd rfl (hne _ _)
  | frag _ _ _ _ _ _ => exact fun _ _ hne => absurd rfl (hne _ _)

/-- One call keeps the invariant. Before an arm, the saved registers are put back, and the part of
the invariant that is about them is used. -/
theorem calls (inv : RunInv P I S F) {code code' : Code} {c c' : Context}
    (h : Calls (code, c) (code', c')) (hP : Allowed P code c) (hI : code.Inv I S F c) :
    code'.Inv I S F c' := by
  cases h with
  | next hk h => exact inv.head h (hP _ _ _ _ .refl) hI
  | arms hk h =>
      have hI₁ := inv.head h (hP _ _ _ _ .refl) hI
      exact ⟨hI₁, inv.saved hI₁⟩
  | arm => exact inv.arm hI.1 hI.2
  | laterArm harm =>
      have hg := (grows_armStart _ _ _ _ _).trans (harm.grows (by rintro b ⟨⟩; exact nofun))
      exact ⟨inv.emits harm (hP.call .arm) (inv.arm hI.1 hI.2) nofun, inv.later hg hI.2⟩
  | frag hbb hstart => exact inv.frag hbb hI.1 hI.2 hstart
  | laterFrag hbb hstart hbody =>
      have hadv := (fragStart_ok hbb hstart).1
      have hg := (grows_atFrag _ _).trans ((hadv.grows.mono fun _ _ => trivial).trans
        ((hbody.grows (by rintro b ⟨⟩; exact hadv.old)).mono fun _ _ => trivial))
      refine ⟨fun _ => ?_, inv.rest hg hI.2⟩
      exact inv.emits hbody (hP.call (.frag hbb hstart)) (inv.frag hbb hI.1 hI.2 hstart) nofun

/-- The invariant holds at everything that code generation comes to. -/
theorem visits (inv : RunInv P I S F) {p q : Code × Context} (h : Visits p q)
    (hP : Allowed P p.1 p.2) (hI : p.1.Inv I S F p.2) : q.1.Inv I S F q.2 := by
  induction h using Relation.ReflTransGen.head_induction_on with
  | refl => exact hI
  | head hcall _ ih => exact ih (hP.call hcall) (inv.calls hcall hP hI)

end RunInv

end SmlnjCfg.Codegen
