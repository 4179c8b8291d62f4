/-!
# Powers

Powers of numbers are those of the core library, whatever other instances are in
sight.
-/

attribute [instance (high)] instPowNat

attribute [default_instance high] instPowNat
