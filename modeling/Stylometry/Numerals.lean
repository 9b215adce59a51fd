-- Sums of natural numbers and powers with a natural exponent. An algebra library has instances
-- of its own for them. Those of the core library come first here, so a number means the same in
-- every module, whatever else the module imports.
namespace Stylometry

instance (priority := 1100) zeroNat : Zero Nat := Zero.ofOfNat0

@[default_instance 20000]
instance (priority := 1100) powNat {α : Type} [NatPow α] : Pow α Nat := instPowNat

end Stylometry
