import HttpStream.Stage

/-! Messages kept for measurements, and how they are fed to a reader. -/

set_option autoImplicit false

namespace HttpStream.Bench

structure SampleFile where
  name : String
  content : String
  deriving DecidableEq, Repr

structure Sample where
  name : String
  kind : Mode
  file : SampleFile
  fragment : Option Nat := none
  deriving DecidableEq, Repr

namespace Sample

def fragmented (sample : Sample) (size : Nat) : Sample := { sample with fragment := some size }

def fragmentSize (sample : Sample) : Nat :=
  max (sample.fragment.getD sample.file.content.utf8ByteSize) 1

end Sample
end HttpStream.Bench
