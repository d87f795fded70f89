import Depot.Digest
import Depot.Manifest.Basic

set_option autoImplicit false

namespace Depot.Sample

def text : Bytes := Bytes.ofString "text"

def newText : Bytes := Bytes.ofString "new text"

def empty : Bytes := []

/-- The text of a manifest with an archive, a copied directory and an included artifact. Its sources
are the file `conf/web.xml` and the directory `static`. -/
def manifest : String :=
  "\x7b
  \"config\": \x7b \"compression\": \x7b \"type\": \"zstd\", \"level\": 3 \x7d \x7d,
  \"artifacts\": \x7b
    \"web\": [
      \x7b \"type\": \"archive\", \"name\": \"web.war\", \"children\": [
        \x7b \"type\": \"dir\", \"name\": \"WEB-INF\", \"children\": [
          \x7b \"type\": \"file\", \"path\": \"conf/web.xml\" \x7d
        ] \x7d,
        \x7b \"type\": \"dir_copy\", \"path\": \"static\" \x7d
      ] \x7d
    ],
    \"app\": [\x7b \"type\": \"artifact\", \"name\": \"web\" \x7d]
  \x7d
\x7d"

end Depot.Sample
