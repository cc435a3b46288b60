import AdaptiveLL.Settings.Environment

/-!
# Profiles

A profile is a purpose that the library is built for; each has its own defaults for the journal.
The environment still overrides them, even with a value that cannot be read: that stands for the
general default.
-/

namespace AdaptiveLL

/-- The profile that the library is built for. -/
def buildProfile : String := "development"

/-- Where the ceilings of the profile come from. -/
def buildSource : String := s!"Generated from config/{buildProfile}.toml"

namespace JournalSettings

/-- The defaults of a profile by itself. -/
def ofProfileName : String → JournalSettings
  | "production" => { structured := true, console := false, level := .warning }
  | _ => { structured := false, console := true, level := .info }

/-- **The journal settings of a profile** in an environment. -/
def ofProfile (e : Environment) (profile : String) : JournalSettings :=
  let given := ofEnvironment e
  let preset := ofProfileName profile
  { structured :=
      if e.contains Environment.journalStructured then given.structured else preset.structured
    console := if e.contains Environment.journalConsole then given.console else preset.console
    level := if e.contains Environment.journalLevel then given.level else preset.level }

/-- The journal settings of the profile that the library is built for. -/
def active (e : Environment) : JournalSettings := ofProfile e buildProfile

/-- What the journal is set to, as text. -/
def summary (s : JournalSettings) : String :=
  s!"Logging ({buildSource}):\n" ++
    s!"- buffer {Limits.journalEvents} events, messages up to {Limits.messageLength} chars, " ++
    s!"{Limits.recordedDiagnostics} recorded diagnostics\n" ++
    s!"- level {s.level.name.capitalize}, structured {s.structured}, console {s.console}"

end JournalSettings

/-- Whether the ceilings of the journal leave room for anything. -/
def Limits.journalIsUsable : Bool :=
  0 < journalEvents && 16 ≤ messageLength && 0 < recordedDiagnostics

end AdaptiveLL
