import Whiteout.Text.Utf8

/-!
# What can go wrong

`Errno` are the thirteen reasons for which the host refuses a request, each with its number and its
wording. An `Error` is a cause. `message` is the sentence shown to a user and `errno` the number
handed to a client of the file system. Paths are kept as bytes and spelled out only in the message.
-/

namespace Whiteout

inductive Errno
  | notPermitted
  | notFound
  | inputOutput
  | accessDenied
  | fileExists
  | notDirectory
  | isDirectory
  | invalidArgument
  | noSpace
  | readOnly
  | nameTooLong
  | notEmpty
  | linkLoop
  deriving DecidableEq, Repr

namespace Errno

def all : List Errno :=
  [.notPermitted, .notFound, .inputOutput, .accessDenied, .fileExists, .notDirectory, .isDirectory,
    .invalidArgument, .noSpace, .readOnly, .nameTooLong, .notEmpty, .linkLoop]

def number : Errno → Nat
  | .notPermitted => 1
  | .notFound => 2
  | .inputOutput => 5
  | .accessDenied => 13
  | .fileExists => 17
  | .notDirectory => 20
  | .isDirectory => 21
  | .invalidArgument => 22
  | .noSpace => 28
  | .readOnly => 30
  | .nameTooLong => 36
  | .notEmpty => 39
  | .linkLoop => 40

def words : Errno → String
  | .notPermitted => "Operation not permitted"
  | .notFound => "No such file or directory"
  | .inputOutput => "Input/output error"
  | .accessDenied => "Permission denied"
  | .fileExists => "File exists"
  | .notDirectory => "Not a directory"
  | .isDirectory => "Is a directory"
  | .invalidArgument => "Invalid argument"
  | .noSpace => "No space left on device"
  | .readOnly => "Read-only file system"
  | .nameTooLong => "File name too long"
  | .notEmpty => "Directory not empty"
  | .linkLoop => "Too many levels of symbolic links"

def text (e : Errno) : String := s!"{e.words} (os error {e.number})"

def ofNumber? (n : Nat) : Option Errno := all.find? fun e => e.number == n

end Errno

open Text (display)

inductive IoError
  | system (reason : Errno)
  | nulInPath
  | notUtf8
  | walk (directory : Bytes) (reason : Errno)
  | treeNotMade
  | other (text : String)
  deriving DecidableEq, Repr

def IoError.text : IoError → String
  | .system reason => reason.text
  | .nulInPath => "file name contained an unexpected NUL byte"
  | .notUtf8 => "stream did not contain valid UTF-8"
  | .walk directory reason => s!"IO error for operation on {display directory}: {reason.text}"
  | .treeNotMade => "failed to create whole tree"
  | .other text => text

def IoError.errno : IoError → Nat
  | .system reason => reason.number
  | _ => Errno.inputOutput.number

inductive ArgumentFault
  | emptySegment
  | noSegment
  | unionRoot (path : Bytes)
  | dotComponent (path component : Bytes)
  | noBranch (rank count : Nat)
  | other (text : String)
  deriving DecidableEq, Repr

def ArgumentFault.text : ArgumentFault → String
  | .emptySegment => "empty path segment"
  | .noSegment => "no path segment given"
  | .unionRoot path => s!"'{display path}' names the union root, which cannot be hidden"
  | .dotComponent path component => s!"'{display path}' contains a '{display component}' component"
  | .noBranch rank count => s!"branch {rank} does not exist ({count} configured)"
  | .other text => text

inductive OwnershipFault
  | refused (path : Bytes) (reason : IoError)
  | other (text : String)
  deriving DecidableEq, Repr

def OwnershipFault.text : OwnershipFault → String
  | .refused path reason => s!"{display path}: {reason.text}"
  | .other text => text

inductive ConfigFault
  | noPathLimit
  | emptyField (field : String)
  | separatorInField (field value : String)
  | noBranches
  | emptyRoot (rank : Nat)
  | rootTooLong (rank : Nat) (root : Bytes) (limit : Nat)
  | badMode (text : String)
  | missingDirectory (branch : String)
  | emptyBranchList (spec : String)
  | noConfigDirectory
  | unreadable (path : Bytes) (reason : IoError)
  | malformed
  | directoryNotMade (reason : IoError)
  | limitNotWritable
  | notWritten (reason : IoError)
  | other (text : String)
  deriving DecidableEq, Repr

def badModeText (text : String) : String :=
  s!"Invalid branch mode '{text}'. Must be one of: rw, ro"

def ConfigFault.text : ConfigFault → String
  | .noPathLimit => "max_path_len must be greater than zero"
  | .emptyField field => s!"{field} must not be empty"
  | .separatorInField field value => s!"{field} '{value}' must not contain '/'"
  | .noBranches => "No branches configured"
  | .emptyRoot rank => s!"Branch {rank} has an empty path"
  | .rootTooLong rank root limit => s!"Branch {rank} path '{display root}' exceeds max_path_len {limit}"
  | .badMode text => badModeText text
  | .missingDirectory branch => s!"Invalid branch '{branch}': missing directory"
  | .emptyBranchList spec => s!"No branches in branch list '{spec}'"
  | .noConfigDirectory => "Could not determine config directory"
  | .unreadable path reason => s!"Failed to read config file {display path}: {reason.text}"
  | .malformed => "Failed to parse config"
  | .directoryNotMade reason => s!"Failed to create config directory: {reason.text}"
  | .limitNotWritable => "Failed to serialize config: out-of-range value for u64 type"
  | .notWritten reason => s!"Failed to write config file: {reason.text}"
  | .other text => text

inductive Error
  | argument (fault : ArgumentFault)
  | nameTooLong (length limit : Nat)
  | io (fault : IoError)
  | ownership (fault : OwnershipFault)
  | config (fault : ConfigFault)
  | json (text : String)
  deriving DecidableEq, Repr

namespace Error

def message : Error → String
  | .argument fault => s!"Invalid argument: {fault.text}"
  | .nameTooLong length limit => s!"Path too long: {length} bytes exceeds limit of {limit}"
  | .io fault => s!"IO error: {fault.text}"
  | .ownership fault => s!"Ownership error: {fault.text}"
  | .config fault => s!"Config error: {fault.text}"
  | .json text => s!"JSON error: {text}"

def errno : Error → Nat
  | .argument _ => Errno.invalidArgument.number
  | .nameTooLong _ _ => Errno.nameTooLong.number
  | .io fault => fault.errno
  | .ownership _ => Errno.notPermitted.number
  | .config _ => Errno.inputOutput.number
  | .json _ => Errno.inputOutput.number

end Error

end Whiteout
