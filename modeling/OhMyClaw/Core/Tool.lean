import OhMyClaw.Lib.RustStr

/-!
# Tool policies

How risky a shell command looks, what an approval mode makes of that, and when a run's
tool calls go round in circles.
-/

namespace OhMyClaw

inductive RiskClass where
  | safe | needsApproval | blocked
deriving DecidableEq, Repr

inductive ApprovalMode where
  | prompt | allow | deny
deriving DecidableEq, Repr

inductive ApprovalOutcome where
  | execute | askUser | reject
deriving DecidableEq, Repr

/-! ## Commands -/

def dangerSubstrings : List String :=
  ["rm -rf", "rm -fr", "rmdir /s", "rd /s", "del /f", "del /q", "format ", "mkfs", "dd if=",
    ":()\x7b:|:&\x7d;:", "shutdown", "reboot", "halt", "> /dev/sda", "chmod -r 777 /", "chown -r"]

def systemPaths : List String :=
  ["/etc/", "/usr/", "/bin/", "/boot/", "/sys/", "/dev/", "c:\\windows", "c:\\program files",
    "%systemroot%", "%windir%"]

/-- The risk of a command, judged by the words in it.  `toLowercase` is the Unicode lower-case
mapping of the standard library. -/
def classifyCommand (toLowercase : List Char → List Char) (cmd : String) : RiskClass :=
  let lower := toLowercase (RustStr.trim cmd.toList)
  let has (p : String) : Bool := RustStr.contains lower p.toList
  let starts (p : String) : Bool := RustStr.startsWith lower p.toList
  if (has "curl" || has "wget" || has "iwr" || has "invoke-webrequest") &&
      (has "| sh" || has "|sh" || has "| bash" || has "|bash" || has "iex" ||
        has "invoke-expression") then .blocked
  else if dangerSubstrings.any has then .needsApproval
  else
    let isWrite := starts "rm " || starts "del " || has " > " || has ">>" || starts "mv " ||
      starts "move " || starts "cp " || starts "copy "
    if isWrite && systemPaths.any has then .needsApproval
    else if starts "sudo " || starts "su " || starts "runas" then .needsApproval
    else .safe

def approvalDecision (risk : RiskClass) (mode : ApprovalMode) : ApprovalOutcome :=
  match mode with
  | .allow => .execute
  | .deny => .reject
  | .prompt =>
    match risk with
    | .safe => .execute
    | .needsApproval => .askUser
    | .blocked => .askUser

/-! ## Repeated calls -/

structure ToolFingerprint where
  name : String
  args : String
deriving DecidableEq, Repr

/-- Whether the last call occurs at least `repeatThreshold` times. -/
def detectLoop (recent : List ToolFingerprint) (repeatThreshold : Nat) : Bool :=
  if recent.length < repeatThreshold then false
  else
    match recent.getLast? with
    | some last => repeatThreshold ≤ (recent.filter (· = last)).length
    | none => false

end OhMyClaw
