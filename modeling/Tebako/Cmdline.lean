import Tebako.Common

namespace Tebako

/-! The command line of a packaged application: its options, and the arguments
that are passed on. -/

/-- `std::invalid_argument` -/
structure InvalidArgument where
  what : String
deriving Repr, DecidableEq

def errorMsg : InvalidArgument :=
  ⟨"Error: --tebako-mount shall be followed by a rule (e.g., --tebako-mount <mount point>:<target>)"⟩

def errorMsgRun : InvalidArgument :=
  ⟨"Error: --tebako-run shall be followed by the application image file name (e.g., --tebako-run=<image file name>)"⟩

def errorMsgRunNodup : InvalidArgument :=
  ⟨"Error: --tebako-run option can be provided only once"⟩

/-- `--tebako-run` -/
def runKey : Str := ['-', '-', 't', 'e', 'b', 'a', 'k', 'o', '-', 'r', 'u', 'n']

def runKeyEx : Str := runKey ++ ['=']

/-- `--tebako-mount` -/
def mountKey : Str := ['-', '-', 't', 'e', 'b', 'a', 'k', 'o', '-', 'm', 'o', 'u', 'n', 't']

def mountKeyEx : Str := mountKey ++ ['=']

/-- `--tebako-extract` -/
def extractKey : Str :=
  ['-', '-', 't', 'e', 'b', 'a', 'k', 'o', '-', 'e', 'x', 't', 'r', 'a', 'c', 't']

def extractKeyEx : Str := extractKey ++ ['=']

/-- `source_filesystem` -/
def extractDest : Str :=
  ['s', 'o', 'u', 'r', 'c', 'e', '_', 'f', 'i', 'l', 'e', 's', 'y', 's', 't', 'e', 'm']

/-- The members of `cmdline_args` that `parse_arguments` fills. -/
structure CmdlineArgs where
  mountpoints : List Str := []
  otherArgs : List Str := []
  extractFolder : Str := []
  appImage : Str := []
  extract : Bool := false
  run : Bool := false
deriving Repr, DecidableEq

/-- The first character of an empty string is its terminating NUL. -/
def IsFlag (arg : Str) : Prop := arg.head? = some '-'

instance (arg : Str) : Decidable (IsFlag arg) := inferInstanceAs (Decidable (_ = _))

namespace CmdlineArgs

/-- The loop of `parse_arguments` from an argument on. -/
def parseFrom : List Str → CmdlineArgs → Except InvalidArgument CmdlineArgs
  | [], args => .ok args
  | arg :: rest, args =>
      if runKeyEx <+: arg then
        let value := arg.drop 13
        if value = [] then .error errorMsgRun
        else if args.run then .error errorMsgRunNodup
        else parseFrom rest { args with run := true, appImage := value }
      else if mountKeyEx <+: arg then
        let value := arg.drop 15
        if value = [] then .error errorMsg
        else parseFrom rest { args with mountpoints := args.mountpoints ++ [value] }
      else if extractKeyEx <+: arg then
        let value := arg.drop 17
        .ok { args with extract := true, extractFolder := if value = [] then extractDest else value }
      else if arg = runKey then
        if args.run then .error errorMsgRunNodup
        else
          match rest with
          | [] => .error errorMsgRun
          | next :: rest =>
              if IsFlag next then .error errorMsgRun
              else parseFrom rest { args with run := true, appImage := next }
      else if arg = mountKey then
        match rest with
        | [] => .error errorMsg
        | next :: rest =>
            if IsFlag next then .error errorMsg
            else parseFrom rest { args with mountpoints := args.mountpoints ++ [next] }
      else if extractKey <+: arg then
        match rest with
        | [] => .ok { args with extract := true, extractFolder := extractDest }
        | next :: _ =>
            .ok { args with extract := true, extractFolder := if IsFlag next then extractDest else next }
      else parseFrom rest { args with otherArgs := args.otherArgs ++ [arg] }

def parseArguments (argv : List Str) : Except InvalidArgument CmdlineArgs := parseFrom argv {}

end CmdlineArgs

end Tebako
