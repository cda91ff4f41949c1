import Indentation.Command.Run
import Indentation.Grammar.Reader

/-! # The program

The files below the working directory are read, the command runs on them, and the files that it
changed are written. -/

namespace Indentation

namespace Main

def contentOf (bytes : ByteArray) : Content :=
  match String.fromUTF8? bytes with
  | some text => .text text.toList 0
  | none => .bytes

/-- The entries of a directory that is reached by some names, and everything below them. -/
partial def entriesOf (names : Location) (found : Array IO.FS.DirEntry) :
    IO (List (Location × Content)) := do
  let below ← found.toList.mapM fun entry => do
    let place := names ++ [entry.fileName]
    if ← entry.path.isDir then
      return (place, Content.directory) :: (← entriesOf place (← entry.path.readDir))
    else return [(place, contentOf (← IO.FS.readBinFile entry.path))]
  return below.flatten

def fileTree : IO FileTree := do
  let home ← IO.currentDir
  return ⟨home.toString, ← entriesOf [] (← home.readDir)⟩

/-- Write the texts that differ from those of the tree before. -/
def store (before after : FileTree) : IO Unit := do
  for (place, content) in after.entries do
    match content, before.contentAt? place with
    | .text new _, some (.text old _) =>
      if new ≠ old then
        IO.FS.writeFile (Path.join after.home ("/".intercalate place)) (String.ofList new)
    | _, _ => pure ()

def parse : FileParser := fun _ _ text => some (Grammar.read text)

end Main

end Indentation

open Indentation in
def main (arguments : List String) : IO UInt32 := do
  let files ← Main.fileTree
  let ending := Command.ofArguments arguments Main.parse files
  Main.store files ending.files
  for line in ending.notes do
    IO.eprintln line
  for line in ending.output do
    IO.println line
  return ending.code.toUInt32
