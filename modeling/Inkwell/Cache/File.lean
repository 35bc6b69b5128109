import Inkwell.Cache.Basic

/-!
# Tables in files

A table of images as the content of a file: a line that says what it is, and then a line with the
key and the hexadecimal digits for each image.
-/

namespace Inkwell.Cache.Table

def heading : Text := "inkvm images"

def renderImage (key image : Text) : Text := key.hex ++ " " ++ image.hex ++ "\n"

def render (t : Table) : Text :=
  heading ++ "\n" ++ Text.concat (t.images.map fun (key, image) => renderImage key image)

def parseImage? (line : Text) : Option (Text × Text) :=
  match line.split 32 with
  | [key, image] => do return (← key.ofHex?, ← image.ofHex?)
  | _ => none

/-- The table in the content of a file; an empty file has an empty one. -/
def parse? (content : Text) : Option Table :=
  if content.isEmpty then some {}
  else
    match content.split 10 with
    | first :: rest =>
      if first = heading then
        ((rest.filter fun line => !line.isEmpty).mapM parseImage?).map fun images => { images }
      else none
    | [] => none

end Inkwell.Cache.Table
