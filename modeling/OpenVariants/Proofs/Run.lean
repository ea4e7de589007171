import OpenVariants.Composition
import OpenVariants.Definition

/-! Computations on the world, applied to a world.

What each way to build a computation does to the world that it starts in. -/
namespace OpenVariants

namespace Run

@[simp] theorem pure_apply (a : α) (w : World) : (Pure.pure a : Run α) w = (.ok a, w) := rfl

@[simp] theorem bind_apply (x : Run α) (f : α → Run β) (w : World) :
    (x >>= f) w = match x w with
      | (.ok a, w) => f a w
      | (.error stop, w) => (.error stop, w) := by
  simp only [bind, ExceptT.bind, ExceptT.mk, ExceptT.bindCont, StateT.bind]
  cases x w with
  | mk result next => cases result <;> rfl

@[simp] theorem map_apply (f : α → β) (x : Run α) (w : World) :
    (f <$> x) w = match x w with
      | (.ok a, w) => (.ok (f a), w)
      | (.error stop, w) => (.error stop, w) := by
  rw [← bind_pure_comp, bind_apply]
  rfl

@[simp] theorem get_apply (w : World) : (get : Run World) w = (.ok w, w) := rfl

@[simp] theorem modify_apply (f : World → World) (w : World) :
    (modify f : Run PUnit) w = (.ok ⟨⟩, f w) := rfl

@[simp] theorem set_apply (w w' : World) : (set w' : Run PUnit) w = (.ok ⟨⟩, w') := rfl

@[simp] theorem change_apply (f : World → α × World) (w : World) :
    (Run.change f) w = (.ok (f w).1, (f w).2) := rfl

@[simp] theorem fail_apply (f : Fault) (w : World) :
    (Run.fail f : Run α) w = (.error (.fault f), w) := rfl

@[simp] theorem throw_apply (stop : Stop) (w : World) :
    (throw stop : Run α) w = (.error stop, w) := rfl

@[simp] theorem lift_apply (r : Except Fault α) (w : World) :
    (Run.lift r) w = match r with
      | .ok a => (.ok a, w)
      | .error f => (.error (.fault f), w) := by
  cases r <;> rfl

@[simp] theorem onFreshStack_eq (x : Run α) : x.onFreshStack = x := rfl

end Run

namespace Program

theorem bind_eq (p : Program α) (f : α → Program β) : p >>= f = p.bind f := rfl

/-- Running one program and then another is running the two in turn. -/
theorem run_bind (perform : Performer) (frame : Option Frame) (p : Program α)
    (f : α → Program β) (w : World) :
    (p >>= f).run perform frame w =
      (p.run perform frame >>= fun a => (f a).run perform frame) w := by
  rw [bind_eq]
  induction p generalizing w with
  | done result => cases result <;> simp [Program.bind, run]
  | ask q next ih | make q next ih | makeFunction label body next ih | makeLazy body next ih =>
    simp [Program.bind, run, ih]
  | log line next ih => simp [Program.bind, run, ih]
  | request r next ih =>
    simp only [Program.bind, run, Run.bind_apply, ih]
    rcases perform frame r w with ⟨(_ | _) | _, _⟩ <;> rfl

@[simp] theorem run_query (perform : Performer) (frame : Option Frame) (q : Query) (w : World) :
    (query q).run perform frame w = (.ok (w.answer frame q), w) := rfl

@[simp] theorem run_pure (perform : Performer) (frame : Option Frame) (a : α) (w : World) :
    (pure a : Program α).run perform frame w = (.ok a, w) := rfl

end Program

end OpenVariants
