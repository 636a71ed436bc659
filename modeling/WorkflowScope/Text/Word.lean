/-!
# Words of 32 bits

Positions and versions are kept in words of 32 bits, which wrap around.
-/

namespace WorkflowScope.Word32

def count : Nat := 0x100000000

def wrap (n : Nat) : Nat :=
  n % count

def wrapSigned (n : Int) : Int :=
  Int.bmod n count

theorem wrap_of_lt {n : Nat} (small : n < count) : wrap n = n :=
  Nat.mod_eq_of_lt small

end WorkflowScope.Word32
