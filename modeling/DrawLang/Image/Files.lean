import DrawLang.Image.Gif
import DrawLang.Image.Png

/-!
# Image files

* `Image.codec`: encoders of PNG and GIF files.
* `Image.readers`: what reads the files that they make.
-/

namespace DrawLang.Image

def codec : ImageCodec where
  png := Png.encode
  gifStart := ⟨[], none⟩
  gifImage := Gif.image
  gifEnd := Gif.finish

def readers : ImageReaders where
  png := Png.decode?
  gif := Gif.decode?

end DrawLang.Image
