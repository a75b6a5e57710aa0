/-
Features: behaviour that can be switched on and off while the program
runs. All are off at first.
-/

namespace ChainHead

/-- A behaviour that can be switched. -/
inductive Feature where
  | debugAttestationPacker
  | ignoreAttestationsForUnknownBlocks
  | ignoreFutureAttestations
  | logHeadUpdates
  | trustOwnAttestationSignatures
  deriving DecidableEq, Repr

namespace Feature

/-- All features in the order in which they are listed. -/
def all : List Feature :=
  [debugAttestationPacker, ignoreAttestationsForUnknownBlocks, ignoreFutureAttestations,
    logHeadUpdates, trustOwnAttestationSignatures]

/-- The name of a feature. -/
def name : Feature → String
  | debugAttestationPacker => "DebugAttestationPacker"
  | ignoreAttestationsForUnknownBlocks => "IgnoreAttestationsForUnknownBlocks"
  | ignoreFutureAttestations => "IgnoreFutureAttestations"
  | logHeadUpdates => "LogHeadUpdates"
  | trustOwnAttestationSignatures => "TrustOwnAttestationSignatures"

/-- The feature with a name, which has to be spelled exactly. -/
def ofName? (text : String) : Option Feature :=
  all.find? fun f => f.name == text

/-- The wording of the refusal of any other name. -/
def unknownNameMessage : String := "parse failed."

end Feature

/-- The features that are switched on. -/
structure Features where
  on : List Feature := []
  deriving DecidableEq, Repr, Inhabited

namespace Features

/-- Whether a feature is switched on. -/
def has (fs : Features) (f : Feature) : Bool :=
  fs.on.contains f

/-- The features with one switched on. -/
def enable (fs : Features) (f : Feature) : Features :=
  if fs.has f then fs else ⟨f :: fs.on⟩

/-- The features with one switched off. -/
def disable (fs : Features) (f : Feature) : Features :=
  ⟨fs.on.filter (· ≠ f)⟩

/-- The features that are switched on, in the order in which features are listed. -/
def toList (fs : Features) : List Feature :=
  Feature.all.filter fs.has

end Features

end ChainHead
