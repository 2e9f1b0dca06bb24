import Mathlib.Init

/-!
# Firmware Metadata

What `Mellow/XeFirmware.hpp` keeps about a GuC image, as far as another
component looks at it.

## Main definitions

* `FirmwareInfo`: versions and sizes.
-/

namespace Mellow.MellowXe

structure FirmwareVersion where
  major : Nat
  minor : Nat
  patch : Nat
  deriving DecidableEq, Repr

def FirmwareVersion.packed (v : FirmwareVersion) : Nat :=
  (v.major <<< 16) ||| (v.minor <<< 8) ||| v.patch

structure FirmwareInfo where
  release : FirmwareVersion
  submission : FirmwareVersion
  ucodeBytes : Nat
  rsaBytes : Nat
  deriving DecidableEq, Repr

def gucMinimumRelease : Nat := 0x461D02
def gucRecommendedRelease : Nat := 0x463500

end Mellow.MellowXe
