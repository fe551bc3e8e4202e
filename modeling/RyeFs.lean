import RyeFs.Validate.Capacity
import RyeFs.Validate.Placement
import RyeFs.Validate.Policy
import RyeFs.Validate.Resize
import RyeFs.Validate.Strerror
import RyeFs.Blake3.Collision
