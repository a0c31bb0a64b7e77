import SmlnjCfg.Codegen.Head

/-!
# `SmlnjCfg.Codegen.Grow`: where code generation adds code

Code generation only adds: to the current block, to blocks it makes, and to
the blocks of the arms and fragments that are still to come. So a block that
was left is finished.

* `Grows`: what is added, and to which blocks. `Advances` is the case of one statement.
* `Stm.head_advances`: the code of a statement, without that of its arms, goes to the current
  block and to new ones.
* `Stm.head_cases`: it stays in one block, or it is the one test for overflow of a trapping
  operation.
-/

set_option autoImplicit false

namespace SmlnjCfg.Codegen

open Cfg Gen

/-! ### Adding code -/

/-- A block made during code generation has been made already: its number is below the next free
one. The blocks of statements and fragments have no such number and are old from the start. -/
def Old (c : Context) (b : BBId) : Prop := ∀ m, b = .new m → m < c.nextBB

/-- `c'` comes from `c` by adding code to blocks in `R`, and phi nodes to new blocks. Nothing that
is there is changed, so whatever is in a block outside of `R` when the code generator leaves it is
all that the finished function has there. The last two fields are about the overflow block: there
is at most one, and once it is made it and its phi nodes stay. -/
structure Grows (R : BBId → Prop) (c c' : Context) : Prop where
  target : c'.target = c.target
  curFn : c'.curFn = c.curFn
  curCluster : c'.curCluster = c.curCluster
  clusterMap : c'.clusterMap = c.clusterMap
  fragMap : c'.fragMap = c.fragMap
  nextId_le : c.nextId ≤ c'.nextId
  nextBB_le : c.nextBB ≤ c'.nextBB
  insts : ∃ is, c'.body.insts = c.body.insts ++ is ∧ ∀ p ∈ is, R p.1 ∧ Old c' p.1
  incoming : ∃ ics, c'.body.incoming = c.body.incoming ++ ics ∧
    ∀ p ∈ ics, R p.2.2 ∧ Old c' p.2.2
  phis : ∃ ps, c'.body.phis = c.body.phis ++ ps ∧ ∀ p ∈ ps,
    (∃ m, c.nextBB ≤ m ∧ m < c'.nextBB ∧ p.1 = .new m) ∧ c.nextId ≤ p.2.1 ∧ p.2.1 < c'.nextId
  overflow : ∀ bb, c.overflowBB = some bb →
    c'.overflowBB = some bb ∧ c'.overflowPhiNodes = c.overflowPhiNodes
  made : ∀ bb, c'.overflowBB = some bb →
    c.overflowBB = some bb ∨ ∃ m, c.nextBB ≤ m ∧ bb = .new m

/-- No block is taken back, so an old block stays old. -/
theorem Old.mono {R : BBId → Prop} {c c' : Context} {b : BBId} (h : Old c b)
    (hg : Grows R c c') : Old c' b := fun m hm => Nat.lt_of_lt_of_le (h m hm) hg.nextBB_le

namespace Grows

variable {R S : BBId → Prop}

/-- Nothing is added. The set `R` is arbitrary, also the empty one. -/
theorem refl (c : Context) : Grows R c c where
  target := rfl
  curFn := rfl
  curCluster := rfl
  clusterMap := rfl
  fragMap := rfl
  nextId_le := Nat.le_refl _
  nextBB_le := Nat.le_refl _
  insts := ⟨[], by simp⟩
  incoming := ⟨[], by simp⟩
  phis := ⟨[], by simp⟩
  overflow _ h := ⟨h, rfl⟩
  made _ h := .inl h

/-- A larger set of blocks forgets where exactly the code went. -/
theorem mono {c c' : Context} (h : Grows R c c') (hRS : ∀ b, R b → S b) : Grows S c c' where
  target := h.target
  curFn := h.curFn
  curCluster := h.curCluster
  clusterMap := h.clusterMap
  fragMap := h.fragMap
  nextId_le := h.nextId_le
  nextBB_le := h.nextBB_le
  insts := by
    obtain ⟨is, heq, his⟩ := h.insts
    exact ⟨is, heq, fun p hp => ⟨hRS _ (his p hp).1, (his p hp).2⟩⟩
  incoming := by
    obtain ⟨ics, heq, hics⟩ := h.incoming
    exact ⟨ics, heq, fun p hp => ⟨hRS _ (hics p hp).1, (hics p hp).2⟩⟩
  phis := h.phis
  overflow := h.overflow
  made := h.made

/-- Additions in a row: the lists of instructions, edges and phi nodes are appended, and what the
first part added to is old in the end too, since the second part makes more blocks. -/
theorem trans {c c₁ c' : Context} (h : Grows R c c₁) (h' : Grows R c₁ c') : Grows R c c' where
  target := h'.target.trans h.target
  curFn := h'.curFn.trans h.curFn
  curCluster := h'.curCluster.trans h.curCluster
  clusterMap := h'.clusterMap.trans h.clusterMap
  fragMap := h'.fragMap.trans h.fragMap
  nextId_le := Nat.le_trans h.nextId_le h'.nextId_le
  nextBB_le := Nat.le_trans h.nextBB_le h'.nextBB_le
  insts := by
    obtain ⟨is, heq, his⟩ := h.insts
    obtain ⟨js, heq', hjs⟩ := h'.insts
    refine ⟨is ++ js, by rw [heq', heq, List.append_assoc], fun p hp => ?_⟩
    rcases List.mem_append.mp hp with hp | hp
    -- An instruction of the first part: its block is still old after the second.
    · exact ⟨(his p hp).1, (his p hp).2.mono h'⟩
    · exact hjs p hp
  incoming := by
    obtain ⟨is, heq, his⟩ := h.incoming
    obtain ⟨js, heq', hjs⟩ := h'.incoming
    refine ⟨is ++ js, by rw [heq', heq, List.append_assoc], fun p hp => ?_⟩
    rcases List.mem_append.mp hp with hp | hp
    · exact ⟨(his p hp).1, (his p hp).2.mono h'⟩
    · exact hjs p hp
  phis := by
    obtain ⟨ps, heq, hps⟩ := h.phis
    obtain ⟨qs, heq', hqs⟩ := h'.phis
    have hid := h.nextId_le
    have hid' := h'.nextId_le
    have hbb := h.nextBB_le
    have hbb' := h'.nextBB_le
    refine ⟨ps ++ qs, by rw [heq', heq, List.append_assoc], fun p hp => ?_⟩
    rcases List.mem_append.mp hp with hp | hp
    -- The numbers of the first part lie below those that the second part starts with.
    · obtain ⟨⟨m, hm, hlt, hb⟩, hlo, hhi⟩ := hps p hp
      exact ⟨⟨m, hm, by omega, hb⟩, hlo, by omega⟩
    · obtain ⟨⟨m, hm, hlt, hb⟩, hlo, hhi⟩ := hqs p hp
      exact ⟨⟨m, by omega, hlt, hb⟩, by omega, hhi⟩
  overflow bb hbb := by
    obtain ⟨h₁, hphis⟩ := h.overflow bb hbb
    obtain ⟨h₂, hphis'⟩ := h'.overflow bb h₁
    exact ⟨h₂, hphis'.trans hphis⟩
  made bb hbb := by
    have hle := h.nextBB_le
    rcases h'.made bb hbb with hbb | ⟨m, hm, hbb⟩
    · exact h.made bb hbb
    · exact .inr ⟨m, by omega, hbb⟩

/-- Straight-line code goes to the current block: it is a list of numbered operations, and the
block is the same for all of them. -/
theorem of_ext {c c' : Context} {is : List (Nat × IR.Op Sym)} (h : Ext c c' is)
    (hold : Old c c.curBB) (hR : R c.curBB) : Grows R c c' := by
  have hf := h.frame
  have hle := h.nextId_le
  rw [hf]
  refine ⟨rfl, rfl, rfl, rfl, rfl, hle, Nat.le_refl _, ⟨_, rfl, ?_⟩, ⟨[], by simp⟩,
    ⟨[], by simp⟩, fun bb hbb => ⟨hbb, rfl⟩, fun bb hbb => .inl hbb⟩
  intro p hp
  obtain ⟨q, -, rfl⟩ := List.mem_map.mp hp
  exact ⟨hR, hold⟩

end Grows

/-! ### Code for one statement -/

/-- Code for one statement: it goes to the current block and to new ones, and the current block is
the same or a new one then. This is what is known of a statement without its kids, whose blocks
are neither. -/
structure Advances (c c' : Context) : Prop where
  grows : Grows (fun b => b = c.curBB ∨ ∃ m, c.nextBB ≤ m ∧ b = .new m) c c'
  curBB : c'.curBB = c.curBB ∨ ∃ m, c.nextBB ≤ m ∧ c'.curBB = .new m
  old : Old c' c'.curBB

namespace Advances

/-- The second statement may add to the block that the first one ended in, which is the block they
started from or a new one, so in both cases one of the blocks that may grow. -/
theorem trans {c c₁ c' : Context} (h : Advances c c₁) (h' : Advances c₁ c') : Advances c c' where
  grows := by
    refine h.grows.trans (h'.grows.mono fun b hb => ?_)
    have hle := h.grows.nextBB_le
    rcases hb with rfl | ⟨m, hm, rfl⟩
    · exact h.curBB
    · exact .inr ⟨m, by omega, rfl⟩
  curBB := by
    have hle := h.grows.nextBB_le
    rcases h'.curBB with hcur | ⟨m, hm, hcur⟩
    · rw [hcur]
      exact h.curBB
    · exact .inr ⟨m, by omega, hcur⟩
  old := h'.old

/-- A statement that generates no code. The current block has to be old, as it is whenever code
generation stands in one. -/
theorem refl {c : Context} (hold : Old c c.curBB) : Advances c c := ⟨.refl c, .inl rfl, hold⟩

/-- Code in the current block alone. -/
theorem of_grows {c c' : Context} (hold : Old c c.curBB) (h : Grows (· = c.curBB) c c')
    (hcur : c'.curBB = c.curBB) : Advances c c' :=
  ⟨h.mono fun _ hb => .inl hb, .inl hcur, hcur ▸ hold.mono h⟩

/-- A generator for straight-line code leaves the current block as it is. -/
theorem of_run {α : Type} {g : Gen α} {c c' : Context} {a : α} (hold : Old c c.curBB)
    (h : g.run c = .ok (a, c')) : Advances c c' := by
  obtain ⟨is, hext⟩ := ext_of_run h
  refine of_grows hold (.of_ext hext hold rfl) ?_
  rw [hext.frame]

end Advances

/-- Making the overflow block adds code to that block only: the operations before the call of the
handler, the call and the return, and one phi node for each register. -/
theorem newOverflowBB_grows {c c' : Context} {bb : BBId} (hnone : c.overflowBB = none)
    (h : newOverflowBB c = .ok (bb, c')) : Grows (fun b => b = .new c.nextBB) c c' := by
  obtain ⟨rfl, is, fn, hle, hc'⟩ := newOverflowBB_ok h
  have hnew : Old c' (.new c.nextBB) := by
    rintro m ⟨⟩
    rw [hc']
    exact Nat.lt_succ_self _
  have hbb : c'.nextBB = c.nextBB + 1 := by rw [hc']
  refine ⟨by rw [hc'], by rw [hc'], by rw [hc'], by rw [hc'], by rw [hc'], by omega, by omega,
    ⟨instsAt (.new c.nextBB) is ++ [_, _], by rw [hc', List.append_assoc], ?_⟩,
    ⟨[], by rw [hc']; simp⟩, ⟨_, by rw [hc'], ?_⟩, by simp [hnone], ?_⟩
  · intro p hp
    have hp' : p.1 = .new c.nextBB := by
      simp only [instsAt, List.mem_append, List.mem_map, List.mem_cons, List.not_mem_nil,
        or_false] at hp
      -- The operations, then the call that raises, then the return after it.
      obtain ⟨q, -, rfl⟩ | rfl | rfl := hp <;> rfl
    rw [hp']
    exact ⟨rfl, hnew⟩
  · intro p hp
    obtain ⟨id, hid, rfl⟩ := List.mem_map.mp hp
    -- The phi nodes have the numbers that were taken when the block was made.
    rw [List.mem_range'_1] at hid
    exact ⟨⟨c.nextBB, Nat.le_refl _, by omega, rfl⟩, hid.1, Nat.lt_of_lt_of_le hid.2 hle⟩
  · intro bb hbb
    rw [hc'] at hbb
    exact .inr ⟨c.nextBB, Nat.le_refl _, (Option.some.inj hbb).symm⟩

/-- What stays when the overflow block is asked for. It is made on the first request and returned
on every later one, and in both cases the current block, the registers and the variables are those
from before. -/
theorem theOverflowBB_grows {c c' : Context} {bb : BBId} (h : theOverflowBB c = .ok (bb, c')) :
    Grows (fun b => b = .new c.nextBB) c c' ∧ c'.curBB = c.curBB ∧ c'.regState = c.regState ∧
      c'.vMap = c.vMap ∧ c'.overflowBB = some bb ∧ c'.body.incoming = c.body.incoming := by
  rcases theOverflowBB_ok h with ⟨hbb, rfl⟩ | ⟨hnone, h⟩
  · exact ⟨.refl _, rfl, rfl, rfl, hbb, rfl⟩
  · obtain ⟨-, is, fn, -, hc'⟩ := newOverflowBB_ok h
    exact ⟨newOverflowBB_grows hnone h, by rw [hc'], by rw [hc'], by rw [hc'], by rw [hc'],
      by rw [hc']⟩

/-- The test for overflow ends the block, and the code goes on in a new one. The new block is made
before the overflow block is asked for, so the two are different, and both are new. -/
theorem Advances.overflowBranch {obit res v : Val} {c c' : Context} (hold : Old c c.curBB)
    (h : overflowBranch obit res c = .ok (v, c')) : Advances c c' := by
  obtain ⟨-, bb, c₁, ics, h₁, rfl, hics⟩ := overflowBranch_ok h
  obtain ⟨hg, hcur, -, -, -, -⟩ := theOverflowBB_grows h₁
  have hle : c.nextBB + 1 ≤ c₁.nextBB := hg.nextBB_le
  have hold₁ : Old c₁ c.curBB := fun m hm => Nat.lt_of_lt_of_le (hold m hm) (by omega)
  -- All edges to the phi nodes of the overflow block come from the block that the test ends.
  have hpred : ∀ p ∈ ics, p.2.2 = c.curBB := by
    intro p hp
    obtain ⟨q, v, -, -, rfl⟩ := exists_left_of_mem hics hp
    rfl
  have hlast : Grows (fun b => b = c.curBB) c₁ { c₁ with
      curBB := .new c.nextBB
      body := { c₁.body with
        insts := c₁.body.insts
          ++ [(c₁.curBB, .term (.condBr obit bb (.new c.nextBB) (some 1)))]
        incoming := c₁.body.incoming ++ ics } } := by
    refine ⟨rfl, rfl, rfl, rfl, rfl, Nat.le_refl _, Nat.le_refl _, ⟨_, rfl, ?_⟩, ⟨_, rfl, ?_⟩,
      ⟨[], by simp⟩, fun b hb => ⟨hb, rfl⟩, fun b hb => .inl hb⟩
    · intro p hp
      rw [List.mem_singleton] at hp
      rw [hp, hcur]
      exact ⟨rfl, hold₁⟩
    · intro p hp
      rw [hpred p hp]
      exact ⟨rfl, hold₁⟩
  -- The three parts in their order: the block of the continuation, the overflow block, the
  -- branch.
  have hfirst : Grows (fun b => b = c.curBB ∨ ∃ m, c.nextBB ≤ m ∧ b = .new m) c { c with
      nextBB := c.nextBB + 1
      body := { c.body with blocks := c.body.blocks ++ [.new c.nextBB] } } :=
    ⟨rfl, rfl, rfl, rfl, rfl, Nat.le_refl _, Nat.le_succ _, ⟨[], by simp⟩, ⟨[], by simp⟩,
      ⟨[], by simp⟩, fun b hb => ⟨hb, rfl⟩, fun b hb => .inl hb⟩
  refine ⟨?_, .inr ⟨c.nextBB, Nat.le_refl _, rfl⟩, ?_⟩
  · refine hfirst.trans (.trans (hg.mono fun b hb => ?_) (hlast.mono fun b hb => .inl hb))
    exact .inr ⟨_, Nat.le_succ _, hb⟩
  · rintro m ⟨⟩
    exact hle

/-! ### What a head adds -/

/-- A step adds code to the current block, or makes the dead block of a `SWITCH`, which is new and
has its whole code at once. -/
theorem Step.advances {R : Rights} {c c' : Context} (h : Step R c c') (hold : Old c c.curBB) :
    Advances c c' := by
  -- The steps that append one instruction, and those that only change what is known of variables,
  -- registers and intrinsics.
  have hinst : ∀ (i : IR.Inst BBId Sym) (n : Nat) (m : Memo), c.nextId ≤ n →
      Grows (· = c.curBB) c { c.append i with nextId := n, memo := m } := by
    intro i n m hn
    refine ⟨rfl, rfl, rfl, rfl, rfl, hn, Nat.le_refl _, ⟨[(c.curBB, i)], rfl, ?_⟩,
      ⟨[], by simp [Context.append]⟩, ⟨[], by simp [Context.append]⟩, fun _ h => ⟨h, rfl⟩,
      fun _ h => .inl h⟩
    intro p hp
    rw [List.mem_singleton] at hp
    rw [hp]
    exact ⟨rfl, hold⟩
  have hsame : ∀ (vMap : LVar → Option Val) (rs : CMRegState) (m : Memo),
      Grows (· = c.curBB) c { c with vMap := vMap, regState := rs, memo := m } :=
    fun _ _ _ => ⟨rfl, rfl, rfl, rfl, rfl, Nat.le_refl _, Nat.le_refl _, ⟨[], by simp⟩,
      ⟨[], by simp⟩, ⟨[], by simp⟩, fun _ h => ⟨h, rfl⟩, fun _ h => .inl h⟩
  cases h with
  | emit o => exact .of_grows hold (hinst (.op c.nextId o) _ _ (Nat.le_succ _)) rfl
  | term t => exact .of_grows hold (hinst (.term t) c.nextId c.memo (Nat.le_refl _)) rfl
  | exitCall isTail fn args =>
      exact .of_grows hold (hinst (.exitCall isTail fn args) c.nextId c.memo (Nat.le_refl _)) rfl
  | use key => exact .of_grows hold (hsame _ _ _) rfl
  | setReg _ => exact .of_grows hold (hsame _ _ _) rfl
  | setBase o _ => exact .of_grows hold (hsame _ _ _) rfl
  | bind _ _ => exact .of_grows hold (hsame _ _ _) rfl
  | incoming phi v _ =>
      refine .of_grows hold ⟨rfl, rfl, rfl, rfl, rfl, Nat.le_refl _, Nat.le_refl _,
        ⟨[], by simp⟩, ⟨_, rfl, ?_⟩, ⟨[], by simp⟩, fun _ h => ⟨h, rfl⟩, fun _ h => .inl h⟩ rfl
      intro p hp
      rw [List.mem_singleton] at hp
      rw [hp]
      exact ⟨rfl, hold⟩
  | deadBlock =>
      refine ⟨⟨rfl, rfl, rfl, rfl, rfl, Nat.le_refl _, Nat.le_succ _, ⟨_, rfl, ?_⟩,
        ⟨[], by simp⟩, ⟨[], by simp⟩, fun _ h => ⟨h, rfl⟩, fun _ h => .inl h⟩, .inl rfl,
        fun m hm => Nat.lt_succ_of_lt (hold m hm)⟩
      intro p hp
      rw [List.mem_singleton] at hp
      rw [hp]
      refine ⟨.inr ⟨_, Nat.le_refl _, rfl⟩, ?_⟩
      rintro m ⟨⟩
      exact Nat.lt_succ_self _

/-- Any number of steps, by induction on them: the block they end in is old again, which is what
the next step asks for. -/
theorem Steps.advances {R : Rights} {c c' : Context} (h : Steps R c c') (hold : Old c c.curBB) :
    Advances c c' :=
  h.preorder (P := fun c c' => Old c c.curBB → Advances c c') (fun _ => .refl)
    (fun h h' hold => (h hold).trans (h' (h hold).old)) Step.advances hold

/-- The head of a statement adds code to the current block and to new ones. It is made of steps
and, for a trapping operation, of one test for overflow. -/
theorem Stm.head_advances {frag : Nat} {s : Stm .cpp} {path : List Nat} {c c' : Context}
    (h : s.head frag path c = .ok ((), c')) (hold : Old c c.curBB) : Advances c c' :=
  Stm.head_preorder (P := fun c c' => Old c c.curBB → Advances c c') h (fun _ => .refl)
    (fun h h' hold => (h hold).trans (h' (h hold).old)) Step.advances
    (fun h hold => .overflowBranch hold h) hold

/-- Straight-line code stays in its block. Only a test for overflow, an arm and a fragment change
it. -/
theorem curBB_of_run {α : Type} {g : Gen α} {c c' : Context} {a : α}
    (h : g.run c = .ok (a, c')) : c'.curBB = c.curBB := by
  obtain ⟨is, hext⟩ := ext_of_run h
  rw [hext.frame]

/-! ### Blocks that end with a test for overflow -/

/-- Code that stays in its block and makes no phi node, neither in the overflow block nor
elsewhere. -/
structure Stays (c c' : Context) : Prop where
  curBB : c'.curBB = c.curBB
  phis : c'.body.phis = c.body.phis
  overflowBB : c'.overflowBB = c.overflowBB
  overflowPhiNodes : c'.overflowPhiNodes = c.overflowPhiNodes

/-- Code that has no edge to a phi node either. This leaves out a jump to a fragment, which passes
its arguments to the phi nodes there. -/
structure StaysIn (c c' : Context) : Prop extends Stays c c' where
  incoming : c'.body.incoming = c.body.incoming

namespace StaysIn

/-- A generator for straight-line code makes no edges, since it makes no jumps. -/
theorem of_run {α : Type} {g : Gen α} {c c' : Context} {a : α} (h : g.run c = .ok (a, c')) :
    StaysIn c c' := by
  obtain ⟨is, hext⟩ := ext_of_run h
  rw [hext.frame]
  exact ⟨⟨rfl, rfl, rfl, rfl⟩, rfl⟩

end StaysIn

/-- Steps stay in the block, since the test for overflow is not one of them. -/
theorem Steps.stays {R : Rights} {c c' : Context} (h : Steps R c c') : Stays c c' :=
  h.preorder (fun _ => ⟨rfl, rfl, rfl, rfl⟩)
    (fun h h' => ⟨h'.curBB.trans h.curBB, h'.phis.trans h.phis,
      h'.overflowBB.trans h.overflowBB, h'.overflowPhiNodes.trans h.overflowPhiNodes⟩)
    fun h => by cases h <;> exact ⟨rfl, rfl, rfl, rfl⟩

/-- Steps without the right to jump pass nothing to phi nodes: an edge to a phi node is the step
that needs this right. -/
theorem Steps.staysIn {R : Rights} {c c' : Context} (h : Steps R c c') (hR : ¬ R.jumps) :
    StaysIn c c' where
  toStays := h.stays
  incoming := h.preorder (P := fun c c' => c'.body.incoming = c.body.incoming) (fun _ => rfl)
    (fun h h' => h'.trans h) fun h => by
      cases h with
      | incoming _ _ hjump => exact absurd hjump hR
      | _ => rfl

/-- A trapping operation: code in the current block, the test `obit` for overflow, and a binding
in a new block. The branch to the overflow block is taken from the block of the operation, whose
code is complete at this point. -/
def Traps (c c' : Context) : Prop :=
  ∃ (c₁ c₂ : Context) (obit res : Val), StaysIn c c₁ ∧ Advances c c₁ ∧
    overflowBranch obit res c₁ = .ok (res, c₂) ∧ ∃ lv, insertVal lv res c₂ = .ok ((), c')

/-- A head stays in its block or traps. The heads that jump to a fragment stay in their block but
pass arguments to its phi nodes; all others that stay make no edges. -/
theorem Stm.head_cases {frag : Nat} {s : Stm .cpp} {path : List Nat} {c c' : Context}
    (hold : Old c c.curBB) (h : s.head frag path c = .ok ((), c')) :
    Stays c c' ∧ (s.kids ≠ .stop → StaysIn c c') ∨ Traps c c' := by
  rcases Stm.head_steps h with hsteps | ⟨c₁, c₂, obit, res, lv, hsteps, hbr, hlv, -, hbind⟩
  · exact .inl ⟨hsteps.stays, hsteps.staysIn⟩
  · -- only an `ARITH` binds a variable and traps, and a `GOTO` binds none
    have hkids : s.kids ≠ .stop := by
      intro hs
      cases s with
      | APPLY | THROW | GOTO | RCC => cases hlv
      | _ => cases hs
    exact .inr ⟨c₁, c₂, obit, res, hsteps.staysIn hkids, hsteps.advances hold, hbr, lv, hbind⟩

/-! ### The start of a fragment -/

/-- A fragment starts in its block, which it is the only one to make current, and reading its
parameters adds code there and makes no edges. -/
theorem fragStart_ok {i : Nat} {f : FragBB} {c c' : Context} (hbb : f.bb = .stm i [])
    (h : fragStart i f c = .ok ((), c')) :
    Advances (c.atFrag (.stm i [])) c' ∧ StaysIn (c.atFrag (.stm i [])) c' := by
  have hsteps := fragStart_steps h
  rw [hbb] at hsteps
  exact ⟨hsteps.advances nofun, hsteps.staysIn id⟩

end SmlnjCfg.Codegen
