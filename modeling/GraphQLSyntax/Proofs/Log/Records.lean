import GraphQLSyntax.Log.Parsing

/-!
# What computations return

A computation adds to the records, and what it returns does not depend on those that are there
already.  So its result can be followed from step to step without looking at the records.
-/

namespace GraphQLSyntax

namespace Logged

variable {β γ : Type}

/-- The computation returns the result, whatever has been recorded before. -/
def Returns (computation : Logged β) (x : β) : Prop :=
  ∀ records, (computation.run records).1 = x

theorem Returns.result_eq {computation : Logged β} {x : β} (h : computation.Returns x) :
    computation.result.1 = x :=
  h []

theorem returns_pure (x : β) : Returns (pure x) x :=
  fun _ => rfl

theorem returns_pure_of_eq {x y : β} (h : x = y) : Returns (pure x) y :=
  fun _ => h

theorem returns_record (level : Level) (text : String) : Returns (record level text) () :=
  fun _ => rfl

theorem Returns.bind {computation : Logged β} {next : β → Logged γ} {x : β} {y : γ}
    (h : computation.Returns x) (hnext : (next x).Returns y) :
    Returns (computation >>= next) y := by
  intro records
  have hstep : ((computation >>= next).run records).1 =
      ((next (computation.run records).1).run (computation.run records).2).1 := rfl
  rw [hstep, h records]
  exact hnext _

/-- A record that is made first does not matter. -/
theorem Returns.afterRecord {next : Unit → Logged γ} {y : γ} (h : (next ()).Returns y)
    (level : Level) (text : String) : Returns (record level text >>= next) y :=
  (returns_record level text).bind h

/-- Items that are looked at one after the other are looked at apart from each other. -/
theorem returns_mapM {action : β → Logged γ} {outcome : β → γ}
    (h : ∀ x, (action x).Returns (outcome x)) (xs : List β) :
    Returns (xs.mapM action) (xs.map outcome) := by
  induction xs with
  | nil => exact returns_pure []
  | cons x xs ih =>
    rw [List.mapM_cons, List.map_cons]
    exact (h x).bind (ih.bind (returns_pure _))

end Logged

/-- Parsing returns the same with records as without. -/
theorem Source.returns_parseLogged (source : Source) (grammar : Grammar)
    (options : ParseOptions) :
    (source.parseLogged grammar options).Returns (source.parseNode grammar options) := by
  refine .afterRecord ?_ _ _
  cases source.parseNode grammar options with
  | ok node => exact Logged.returns_pure (Except.ok node)
  | error error => exact .afterRecord (Logged.returns_pure (Except.error error)) _ _

end GraphQLSyntax
