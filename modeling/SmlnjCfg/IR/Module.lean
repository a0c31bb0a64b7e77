import SmlnjCfg.IR.Exec

/-!
# `SmlnjCfg.IR.Module`: execution of several functions

A tail call replaces the running function by the one at the address, with new
registers and the same memory. A function starts at its first block.

* `enterFn`, `callFn`: a function is called.
* `Frame.step`: one step, inside a function or from one to the next.
-/

set_option autoImplicit false

namespace SmlnjCfg.IR

variable {β γ : Type} [DecidableEq β]

/-- A running function: its body, the arguments it was called with and where it is. The arguments
stay those of the call, since a function's parameters are values and never assigned. -/
structure Frame (β γ : Type) where
  body : Body β γ
  args : List (Option Word)
  config : Config β γ

/-- The start of a function: its first block, with no value computed yet. The memory and the
recorded stores are the caller's, and a function without a block cannot be entered. -/
def enterFn (F : Body β γ) (args : List (Option Word)) (mem : Mem) (trace : List Write) :
    Option (Frame β γ) :=
  F.blocks.head?.map fun b => ⟨F, args, ⟨b, F.block b, ⟨fun _ => [], mem, trace⟩⟩⟩

/-- Call an address: the first function with that address is entered. Nothing is at another
address, and then the call leaves the module. -/
def callFn (host : Host γ) (fns : List (γ × Body β γ)) (fn : Word) (args : List (Option Word))
    (mem : Mem) (trace : List Write) : Option (Frame β γ) :=
  (fns.find? fun p => host.addr p.1 = fn).bind fun p => enterFn p.2 args mem trace

/-- One step of a module. A function that can go on does so, and one that has ended with a tail
call is replaced by its callee. A call that is not a tail call, to the garbage collector or to a C
function, leaves the module. -/
def Frame.step (host : Host γ) (fns : List (γ × Body β γ)) (fr : Frame β γ) :
    Option (Frame β γ) :=
  match next ⟨host, fr.args⟩ fr.body fr.config with
  | some q => some { fr with config := q }
  | none =>
      match final ⟨host, fr.args⟩ fr.config with
      | some (.call true fn args) =>
          callFn host fns fn args fr.config.st.mem fr.config.st.trace
      | _ => none

/-- The steps of a function are steps of the module, so what is proved of a function's runs lifts
to the module without change. -/
theorem Frame.step_next {host : Host γ} {fns : List (γ × Body β γ)} {F : Body β γ}
    {args : List (Option Word)} {q q' : Config β γ} (h : next ⟨host, args⟩ F q = some q') :
    (Frame.mk F args q).step host fns = some ⟨F, args, q'⟩ := by
  rw [Frame.step, h]

/-- A tail call hands the memory and the recorded stores to the callee, and nothing else: the
frame of the caller is gone. -/
theorem Frame.step_call {host : Host γ} {fns : List (γ × Body β γ)} {F : Body β γ}
    {args as : List (Option Word)} {fn : Word} {q : Config β γ}
    (hnext : next ⟨host, args⟩ F q = none)
    (hfinal : final ⟨host, args⟩ q = some (.call true fn as)) :
    (Frame.mk F args q).step host fns = callFn host fns fn as q.st.mem q.st.trace := by
  rw [Frame.step, hnext, hfinal]

/-- A call that is not a tail call is not followed, since what it reaches is not compiled code of
the module. -/
theorem Frame.step_exit {host : Host γ} {fns : List (γ × Body β γ)} {F : Body β γ}
    {args as : List (Option Word)} {fn : Word} {q : Config β γ}
    (hnext : next ⟨host, args⟩ F q = none)
    (hfinal : final ⟨host, args⟩ q = some (.call false fn as)) :
    (Frame.mk F args q).step host fns = none := by
  rw [Frame.step, hnext, hfinal]

end SmlnjCfg.IR
