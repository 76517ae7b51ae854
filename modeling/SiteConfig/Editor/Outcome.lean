import SiteConfig.Editor.Error
import SiteConfig.Editor.Event
/-!
# Outcomes

An operation on storage has a result or an error, leaves the storage as it
was or changed, and reports events in order.
-/

namespace SiteConfig

/-- What an operation comes to. -/
structure Outcome (α : Type) where
  result : Except EditError α
  /-- The storage after the operation. -/
  storage : Storage
  events : List Event := []

namespace Outcome

/-- A result without an effect. -/
def done {α : Type} (a : α) (s : Storage) (events : List Event := []) : Outcome α :=
  ⟨.ok a, s, events⟩

/-- An error without an effect. -/
def failed {α : Type} (e : EditError) (s : Storage) (events : List Event := []) : Outcome α :=
  ⟨.error e, s, events⟩

/-- An outcome with an event in front of its own. -/
def after {α : Type} (e : Event) (o : Outcome α) : Outcome α :=
  { o with events := e :: o.events }

/-- An outcome with a last event, if the result is that something changed. -/
def announce (e : Event) (o : Outcome Bool) : Outcome Bool :=
  match o.result with
  | .ok true => { o with events := o.events ++ [e] }
  | _ => o

end Outcome

end SiteConfig
