import Mathlib.Data.List.Basic

/-!
# Addresses

`Address` is the emulator's address type. The peripherals only compare addresses
and add small offsets to them, so it is a natural number here.
-/

namespace FuguexPeripheral

abbrev Address := Nat

end FuguexPeripheral
