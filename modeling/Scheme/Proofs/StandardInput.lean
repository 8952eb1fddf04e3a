import Scheme.Proofs.DrainedPorts
/-!
# Standard input only runs out

Whatever the machine does, standard input is never lengthened: reading shortens it, closing empties
it, and a file that is read while it changes has a port of its own. A loop that reads from it in
every round goes on only as long as there is something left.
-/

namespace Scheme

open Step

namespace World

/-- Standard input is a port, and no file is read through it. -/
structure Attached (w : World) : Prop where
  port : 0 < w.inputs.size
  alone : ∀ f ∈ w.followers, f.port ≠ .standardInput

/-- From one world to the other standard input stays attached and is not lengthened. -/
def Onward (w w' : World) : Prop :=
  w.Attached → w'.Attached ∧ (w'.reader .standardInput).size ≤ (w.reader .standardInput).size

theorem attached_iff (w : World) : w.Attached ↔ w.Detached .standardInput :=
  ⟨fun hw => ⟨hw.port, hw.alone⟩, fun hw => ⟨hw.port, hw.alone⟩⟩

theorem Drains.onward {w w' : World} (h : w.Drains w') : w.Onward w' := by
  intro hw
  obtain ⟨hdetached, hdrained⟩ := h.input .standardInput (w.attached_iff.1 hw)
  exact ⟨w'.attached_iff.2 hdetached, hdrained.size_le⟩

/-- A change of a file has no effect on standard input. -/
theorem Attached.fileChanged {w : World} (hw : w.Attached) (place : String) :
    (w.fileChanged place).Attached ∧
      (w.fileChanged place).reader .standardInput = w.reader .standardInput := by
  obtain ⟨hdetached, hreader⟩ := (w.attached_iff.1 hw).fileChanged place
  exact ⟨(attached_iff _).2 hdetached, hreader⟩

theorem Attached.sinkChanged {w : World} (hw : w.Attached) (sink : Sink) :
    (w.sinkChanged sink).Attached ∧
      (w.sinkChanged sink).reader .standardInput = w.reader .standardInput := by
  cases sink with
  | file place position => exact hw.fileChanged place
  | _ => exact ⟨hw, rfl⟩

theorem Attached.sent {w : World} (hw : w.Attached) (ref : Ref .outputPort) (sink : Sink)
    (text : String) :
    (w.sent ref sink text).Attached ∧
      (w.sent ref sink text).reader .standardInput = w.reader .standardInput := by
  have hwritten : World.Attached { w with
      outputs := w.outputs.setIfInBounds ref.index (some (w.host.write sink text).2.1)
      host := (w.host.write sink text).2.2 } := ⟨hw.port, hw.alone⟩
  exact hwritten.sinkChanged _

end World

theorem Step.Ends.onward {s : State} {outcome : Outcome} {w : World}
    (h : (Step.next s).Ends outcome w) : s.world.Onward w :=
  h.drains.onward

/-! ## Interpreters -/

namespace World

theorem attached_bare (host : Host) : (bare host).Attached :=
  ⟨by simp [bare], by simp [bare]⟩

theorem attached_new (host : Host) : (new host).Attached :=
  ⟨by simp [new, bare], by simp [new, bare]⟩

/-- An interpreter keeps its standard input through all that it is asked. -/
theorem Attached.answer {w : World} (hw : w.Attached) (request : Request) :
    (request.answer w).2.Attached :=
  ((request.drains_answer w).onward hw).1

end World

end Scheme
