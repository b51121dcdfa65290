/-! # The program

The name and the version under which the program speaks of itself.
-/

namespace LoadBearing

def programName : String := "faultline"

def programVersion : String := "0.3.0"

end LoadBearing
