import LineScript.Fault
import LineScript.Text.Blank

/-!
The commands of the console.
-/

namespace LineScript

/-- The commands that need something after them. -/
inductive Usage where
  | run
  | save
  | echo
deriving Repr, DecidableEq

/-- How such a command is used. -/
def Usage.text : Usage → String
  | run => "run <file>"
  | save => "save <file>"
  | echo => "echo on|off"

/-- What can go wrong in the console. -/
inductive ConsoleFault where
  | script (fault : Fault)
  | file (path : String) (cause : IoFault)
  | unknownCommand (line : String)
  | usage (command : Usage)
  | terminal (cause : IoFault)
deriving Repr, DecidableEq

namespace ConsoleFault

/-- The wording of a fault. -/
def message : ConsoleFault → String
  | script fault => fault.message
  | file path cause => path ++ ": " ++ cause.message
  | unknownCommand line => "Command \"" ++ line ++ "\" not found."
  | usage command => "usage: " ++ command.text
  | terminal cause => cause.message

/-- Only a fault of a script can be critical. -/
def isCritical : ConsoleFault → Bool
  | script fault => fault.isCritical
  | _ => false

/-- Whether the console was asked to stop. -/
def isTermination : ConsoleFault → Bool
  | script fault => fault.isTermination
  | _ => false

end ConsoleFault

/-- A command. -/
inductive Command where
  | nothing
  | interpret
  | run (path : String)
  | save (path : String)
  | echo (on : Bool)
  | debug
  | help
  | version
  | exit
deriving Repr, DecidableEq

/-- Reads a command. Words after the ones that a command needs are ignored. -/
def Command.read (line : String) : Except ConsoleFault Command :=
  match words line with
  | [] => .ok .nothing
  | "interpret" :: _ => .ok .interpret
  | "run" :: path :: _ => .ok (.run path)
  | "run" :: _ => .error (.usage .run)
  | "save" :: path :: _ => .ok (.save path)
  | "save" :: _ => .error (.usage .save)
  | "echo" :: "on" :: _ => .ok (.echo true)
  | "echo" :: "off" :: _ => .ok (.echo false)
  | "echo" :: _ => .error (.usage .echo)
  | "debug" :: _ => .ok .debug
  | "help" :: _ => .ok .help
  | "version" :: _ => .ok .version
  | "exit" :: _ => .ok .exit
  | _ => .error (.unknownCommand line)

/-- The lines that `help` shows. -/
def helpLines : List String :=
  ["> interpret: Interprets code entered from the console",
    "> run [file]: Runs a script file.",
    "> save [file]: Saves the last interpreted code to a file.",
    "> echo [on/off]: Shows or hides the console prompt.",
    "> debug: Notifies you which line it is executing.",
    "> help: Shows this menu.",
    "> exit: Exits this program.",
    "> version: Shows version information."]

/-- The line that `version` shows. -/
def versionLine : String :=
  "Prerelease Version 0.5.4"

end LineScript
