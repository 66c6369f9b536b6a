import LadderLogic.Listing

/-!
# Sample programs

A step sequencer and a self-holding circuit. The sequencer keeps its step in the register `iStep`: in
step 0 it waits for the start button `X0`, in step 10 the lamp `Y0` is on and it waits for the sensor
`X1`, and in step 20 the lamp is off and the done lamp `Y1` on. The bit `M0` sees to it that `iStep` is
cleared once only.

Source: `state_machine_program` and `self_hold_program`, the bundled examples of section 1 of the
specification.
-/

namespace LadderLogic
namespace Sample

/-- The listing of the step sequencer. -/
def sequencerListing : String :=
  "// init\nLDI   M0\nMOVP  K0 iStep\nSET   M0\n" ++
  "// step 0\nLD=   iStep K0\nAND   X0\nMOVP  K10 iStep\n" ++
  "// step 10\nLD=   iStep K10\nSET   Y0\nLD=   iStep K10\nAND   X1\nMOVP  K20 iStep\n" ++
  "// step 20\nLD=   iStep K20\nRST   Y0\nSET   Y1\n"

/-- The listing of the self-holding circuit. -/
def selfHoldListing : String :=
  "LD    X0    ; start\nOR    Y0    ; hold\nANI   X1    ; stop\nOUT   Y0\n"

/-- The step sequencer. -/
def sequencer : Program := Listing.parse sequencerListing

/-- The self-holding circuit. -/
def selfHold : Program := Listing.parse selfHoldListing

end Sample
end LadderLogic
