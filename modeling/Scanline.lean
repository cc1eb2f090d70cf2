import Scanline.Scene
import Scanline.Painter.Stroke
import Scanline.Glyph.Columns
import Scanline.Glyph.Writer
import Scanline.Proofs.Painter.Source
import Scanline.Proofs.Painter.Flat
import Scanline.Proofs.Glyph.Reader
import Scanline.Proofs.Pixmap.Overlay
import Scanline.Proofs.Painter.Masked
import Scanline.Proofs.Pixmap.OverlayThrough
import Scanline.Proofs.Painter.Tinted
import Scanline.Proofs.Glyph.Spans
import Scanline.Proofs.Pixmap.Stamp
import Scanline.Proofs.Pixmap.StampWindow
import Scanline.Proofs.Painter.Stroke
import Scanline.Proofs.Painter.Premultiplied
import Scanline.Proofs.Pixmap.Families
import Scanline.Proofs.Scene.Families
import Scanline.Proofs.Pixmap.Patch
import Scanline.Proofs.Pixmap.StampTiles
import Scanline.Proofs.Pixmap.Settled
import Scanline.Proofs.Scene.Commute
import Scanline.Proofs.Painter.Alpha
import Scanline.Proofs.Glyph.Progress
import Scanline.Proofs.Pixmap.Refusals
import Scanline.Proofs.Scene.Refusals
import Scanline.Proofs.Pixmap.Picture
import Scanline.Proofs.Glyph.Writer
import Scanline.Proofs.Painter.Coincidence
import Scanline.Proofs.Painter.Reach
import Scanline.Proofs.Painter.Split
import Scanline.Proofs.Painter.Monotone
import Scanline.Proofs.Pixmap.Gather
import Scanline.Proofs.Rect.Points
import Scanline.Proofs.Pixmap.Address
