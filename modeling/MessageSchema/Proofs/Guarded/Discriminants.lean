import MessageSchema.Proofs.Discriminant.Collision
import MessageSchema.Proofs.Guarded.Basic
import MessageSchema.Proofs.Protocol.Valid

/-!
# Positions of discriminants

Errors about discriminants name messages by their positions: of the message whose discriminant
overflows, and of two that share one. `resolveGuarded` looks these positions up and breaks if they
are not indices of the messages. They are (`Discriminant.index_lt`, `FirstRepeat.lt_length`), so it
does what `resolve` does: `resolveGuarded_eq`.
-/

namespace MessageSchema

open Guarded

namespace Discriminant

/-- The message without a discriminant is one of the messages. -/
theorem index_lt {explicit : List (Option Int64)} {index : Nat} {previous : Int64}
    {overflow : Overflow} (h : assignFrom index previous explicit = .error overflow) :
    overflow.index < index + explicit.length := by
  induction explicit generalizing index previous with
  | nil => cases h
  | cons first rest ih =>
    rw [assignFrom] at h
    rw [List.length_cons]
    split at h
    · cases h
      dsimp only
      omega
    · rename_i value _
      rcases hrest : assignFrom (index + 1) value rest with failed | values
      · rw [hrest] at h
        cases h
        have := ih hrest
        omega
      · rw [hrest] at h
        cases h

end Discriminant

namespace Protocol

/-- The name of the message at a position, which must be an index. -/
def nameAtGuarded (messages : List Message) (index : Nat) : Guarded ResolveError String :=
  found .indexOutOfRange (messages[index]?.map (·.name))

/-- `assignDiscriminants` with all positions looked up. -/
def assignDiscriminantsGuarded (policy : DiscriminantPolicy) (messages : List Message) :
    Guarded ResolveError (List TaggedMessage) :=
  match Discriminant.assign (messages.map (·.explicitValue)) with
  | .error overflow => do
    let name ← nameAtGuarded messages overflow.index
    report (.discriminantOverflow name)
  | .ok values =>
    let entries := List.zipWith TaggedMessage.mk messages values
    match entries.find? (fun e => !fitsInt e.discriminant) with
    | some e => report (.discriminantOutOfRange e.message.name e.discriminant)
    | none =>
      match policy, Discriminant.firstCollision? values with
      | .unique, some (first, second) => do
        let value ← found .indexOutOfRange values[second]?
        let firstName ← nameAtGuarded messages first
        let secondName ← nameAtGuarded messages second
        report (.duplicateDiscriminant value firstName secondName)
      | _, _ => .ok entries

/-- `resolve` with all positions looked up. -/
def resolveGuarded (policy : DiscriminantPolicy) (messages : List Message) :
    Guarded ResolveError Protocol := do
  guarded (checkMessagesAfter [] messages)
  return ⟨← assignDiscriminantsGuarded policy messages⟩

variable {messages : List Message}

theorem nameAtGuarded_eq {index : Nat} (h : index < messages.length) :
    nameAtGuarded messages index = .ok (nameAt messages index) := by
  rw [nameAtGuarded, nameAt, List.getElem?_eq_getElem h]
  rfl

/-- The names in the errors of an assignment are looked up at positions that messages have. -/
theorem assignDiscriminantsGuarded_eq (policy : DiscriminantPolicy) (messages : List Message) :
    assignDiscriminantsGuarded policy messages = guarded (assignDiscriminants policy messages) := by
  rcases hassign : Discriminant.assign (messages.map (·.explicitValue)) with overflow | values
  · have hindex := Discriminant.index_lt hassign
    rw [List.length_map, Nat.zero_add] at hindex
    simp only [assignDiscriminantsGuarded, assignDiscriminants, hassign, nameAtGuarded_eq hindex]
    rfl
  · simp only [assignDiscriminantsGuarded, assignDiscriminants, hassign]
    rcases List.find? _ (List.zipWith TaggedMessage.mk messages values) with _ | e
    · rcases hcollision : Discriminant.firstCollision? values with _ | ⟨first, second⟩
      · cases policy <;> rfl
      · cases policy with
        | permissive => rfl
        | unique =>
          -- both positions of a collision are positions of values, hence of messages
          have hrepeat := Discriminant.firstCollision?_eq_some.mp hcollision
          have hfirst := hrepeat.lt
          have hvalue := hrepeat.lt_length
          have hlength : values.length = messages.length :=
            length_of_map_eq_numbers (Discriminant.assign_eq_ok.mp hassign)
          simp only [nameAtGuarded_eq (show first < messages.length by omega),
            nameAtGuarded_eq (show second < messages.length by omega),
            List.getElem?_eq_getElem hvalue]
          rfl
    · rfl

/-- No position leads out of the messages. -/
theorem resolveGuarded_eq (policy : DiscriminantPolicy) (messages : List Message) :
    resolveGuarded policy messages = guarded (resolve policy messages) := by
  rw [resolveGuarded, resolve, guarded_bind, assignDiscriminantsGuarded_eq]
  refine congrArg (guarded _ >>= ·) (funext fun _ => ?_)
  rw [guarded_bind]
  rfl

end Protocol

end MessageSchema
