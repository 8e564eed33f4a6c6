import Abacus.Terminal

/-!
# The program's entry
-/

def main (arguments : List String) : IO UInt32 := Abacus.Terminal.program arguments
