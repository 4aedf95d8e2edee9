import MatrixCalc.Cell

/-!
# Events

What a session reports about its work.  Every event has a level; the text of an event names
operations, variables and counts, never values.
-/

namespace MatrixCalc

/-- How much attention an event asks for. -/
inductive Event.Level where
  | trace
  | debug
  | info
  | warn
deriving DecidableEq

/-- The level in words. -/
def Event.Level.text : Event.Level → String
  | trace => "TRACE"
  | debug => "DEBUG"
  | info => "INFO"
  | warn => "WARN"

/-- Something that happened. -/
inductive Event where
  /-- A macro invocation is being replaced. -/
  | expanding (name : String)
  /-- An operation was added to the program. -/
  | emitted (operation : String)
  /-- A statement was compiled. -/
  | compiled (tokens operations temporaries : Nat)
  /-- The intermediate variables of a statement are given up. -/
  | released (temporaries : Nat)
  /-- A macro was declared. -/
  | declaredMacro (name : String) (params : List String)
  /-- An assignment introduced a variable. -/
  | declared (name : String) (kind : Kind)
  /-- A workspace file was read. -/
  | fileRead (bytes : Nat)
  /-- A workspace was loaded. -/
  | loaded (definitions statements : Nat)
  /-- All statements of a workspace were processed. -/
  | processed (statements : Nat)
  /-- A variable has no form in the results. -/
  | skipped (name : String)
deriving DecidableEq

namespace Event

/-- The level of an event. -/
def level : Event → Level
  | expanding _ | emitted _ => .trace
  | compiled _ _ _ | released _ | declaredMacro _ _ | declared _ _ | fileRead _ => .debug
  | loaded _ _ | processed _ => .info
  | skipped _ => .warn

/-- The event in words. -/
def text : Event → String
  | expanding name => s!"expanding macro {name}"
  | emitted operation => s!"emit {operation}"
  | compiled tokens operations temporaries =>
    s!"compiled {tokens} tokens into {operations} operations using {temporaries} temporaries"
  | released temporaries => s!"releasing {temporaries} temporaries"
  | declaredMacro name params => s!"declared macro {name}(" ++ ", ".intercalate params ++ ")"
  | declared name kind => s!"declared {name} as a {kind.text}"
  | fileRead bytes => s!"workspace file is {bytes} bytes"
  | loaded definitions statements => s!"Found {definitions} variables and {statements} equations"
  | processed statements => s!"Processed {statements} statements"
  | skipped name => s!"skipping `{name}`: integer sequences are not written out"

/-- The event as one line of a log. -/
def line (e : Event) : String := s!"{e.level.text} {e.text}"

end Event

end MatrixCalc
