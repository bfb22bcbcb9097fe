import JudicaVM.Attest.Payloads

/-!
# What a peer can send

Decoding an envelope computes its hash. Whether that returns depends on the integers of the header
only, whatever the type of the message.
-/

namespace JudicaVM

open Checked Serde GenericEnvelope

/-- Libraries that accept every key and every signature. -/
def sampleLibraries : Libraries Unit where
  isPoint _ := true
  psbtFromStr _ := some ()
  psbtToString _ := ""
  sha256 _ := ⟨1⟩
  verifySchnorr _ _ _ := true

/-- Libraries that accept every signature and tell trees apart by how deeply they are nested. -/
def depthLibraries : Libraries Unit :=
  { sampleLibraries with sha256 := fun j => ⟨j.depth⟩ }

def sampleHex : Json :=
  .str "0000000000000000000000000000000000000000000000000000000000000001"

/-- An envelope of a height, as a peer writes it. -/
def sampleEnvelope (height : ℤ) (msg : Json) : Json :=
  .obj [("header", .obj [("key", sampleHex), ("next_nonce", sampleHex), ("height", .int height),
      ("sent_time_ms", .int 0), ("unsigned", .obj [("signature", .null)]),
      ("checkpoints", .obj [("checkpoints", .arr (List.replicate 5 (.arr [sampleHex, .int (-1)])))])]),
    ("msg", msg)]

private theorem large_height_aborts :
    aborts (GenericEnvelope.decode sampleLibraries wrappedJson (sampleEnvelope (2 ^ 53) .null))
      (.message "Canonicalization Must Succeed") := by
  decide +kernel

/-- The largest height that does not. -/
example : returns (GenericEnvelope.decode sampleLibraries wrappedJson
    (sampleEnvelope (2 ^ 53 - 1) .null)) Option.isSome := by
  decide +kernel

end JudicaVM
