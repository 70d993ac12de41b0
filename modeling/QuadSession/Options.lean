/-!
# Options of a session
-/

namespace QuadSession

/-- How a session is set up.  Whether several threads may use it does not change
what it answers.  Unless stated otherwise it is meant for one thread, and it
records its changes. -/
structure Options where
  threadSafe : Bool := false
  tracking : Bool := true
deriving DecidableEq, Repr

namespace Options

instance : Inhabited Options := ⟨{}⟩

def withThreadSafe (o : Options) (threadSafe : Bool) : Options :=
  { o with threadSafe }

def withTracking (o : Options) (tracking : Bool) : Options :=
  { o with tracking }

end Options

end QuadSession
